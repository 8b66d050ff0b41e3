import Mathlib.Data.Nat.Cast.Defs

/-! # The numeral 2

A definition over a field that mentions `2` carries a proof that the numeral is at least two. With a
named instance it is the same proof wherever the numeral stands. -/
namespace Numerals

instance atLeastTwo_two : Nat.AtLeastTwo 2 := ⟨Nat.le_refl 2⟩

end Numerals
