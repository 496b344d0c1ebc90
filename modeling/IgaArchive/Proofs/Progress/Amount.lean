import IgaArchive.Progress.Amount
import Mathlib.Data.Nat.Log
import Mathlib.Tactic.Positivity
import Mathlib.Tactic.Ring

/-!
The unit of a large amount. The search for it takes one turn for each further power of 1024 that is no more than
the amount. On all these turns the unit is exactly that power, so it never leaves 64 bits, and where the search
stops, the unit has a letter and the amount lies between the unit and the next one.
-/

namespace IgaArchive.Amount

/-- Where the search for a unit stands: what is left of the amount, and the unit with its index. -/
structure Search where
  left : UInt64
  unit : UInt64
  index : Nat

namespace Search

def start (n : UInt64) : Search :=
  ⟨n / 1024, 1024, 0⟩

def turn (search : Search) : Search :=
  ⟨search.left / 1024, search.unit * 1024, search.index + 1⟩

def after (n : UInt64) : Nat → Search
  | 0 => start n
  | turns + 1 => (after n turns).turn

theorem after_index (n : UInt64) (turns : Nat) : (after n turns).index = turns := by
  induction turns with
  | zero => rfl
  | succ turns ih => rw [after, turn, ih]

/-- The search stands where it would with numbers of any size. -/
structure Exact (n : Nat) (search : Search) : Prop where
  unit : search.unit.toNat = 1024 ^ (search.index + 1)
  left : search.left.toNat = n / 1024 ^ (search.index + 1)

theorem start_exact (n : UInt64) : Exact n.toNat (start n) := by
  constructor
  · rw [start, Nat.zero_add, Nat.pow_one]
    rfl
  · rw [start, Nat.zero_add, Nat.pow_one, UInt64.toNat_div]
    rfl

theorem Exact.more_iff {n : Nat} {search : Search} (exact : Exact n search) :
    1024 ≤ search.left ↔ 1024 ^ (search.index + 2) ≤ n := by
  have positive : 0 < 1024 ^ (search.index + 1) := by positivity
  have next : 1024 ^ (search.index + 2) = 1024 * 1024 ^ (search.index + 1) := by ring
  rw [UInt64.le_iff_toNat_le, exact.left, next, ← Nat.le_div_iff_mul_le positive]
  rfl

/-- The next unit is no more than the amount, so the multiplication does not wrap around. -/
theorem Exact.unit_mul_lt {n : UInt64} {search : Search} (exact : Exact n.toNat search)
    (more : 1024 ≤ search.left) : search.unit.toNat * 1024 < 2 ^ 64 := by
  calc
    search.unit.toNat * 1024 = 1024 ^ (search.index + 2) := by
      rw [exact.unit]
      ring
    _ ≤ n.toNat := exact.more_iff.mp more
    _ < 2 ^ 64 := n.toNat_lt

theorem Exact.turn {n : UInt64} {search : Search} (exact : Exact n.toNat search)
    (more : 1024 ≤ search.left) : Exact n.toNat search.turn := by
  constructor
  · calc
      (search.unit * 1024).toNat = search.unit.toNat * 1024 := by
        rw [UInt64.toNat_mul]
        exact Nat.mod_eq_of_lt (exact.unit_mul_lt more)
      _ = 1024 ^ (search.index + 1 + 1) := by
        rw [exact.unit]
        ring
  · calc
      (search.left / 1024).toNat = n.toNat / 1024 ^ (search.index + 1) / 1024 := by
        rw [UInt64.toNat_div, exact.left]
        rfl
      _ = n.toNat / 1024 ^ (search.index + 1 + 1) := by
        rw [Nat.div_div_eq_div_mul, ← Nat.pow_succ]

theorem pow_le_succ (turns : Nat) : 1024 ^ (turns + 1) ≤ 1024 ^ (turns + 2) :=
  Nat.pow_le_pow_right (by decide) (Nat.le_succ _)

theorem after_exact (n : UInt64) (turns : Nat) (reached : 1024 ^ (turns + 1) ≤ n.toNat) :
    Exact n.toNat (after n turns) := by
  induction turns with
  | zero => exact start_exact n
  | succ turns ih =>
      have exact := ih (Nat.le_trans (pow_le_succ turns) reached)
      apply exact.turn
      rw [exact.more_iff, after_index]
      exact reached

theorem after_more (n : UInt64) (turns : Nat) (next : 1024 ^ (turns + 2) ≤ n.toNat) :
    1024 ≤ (after n turns).left ∧ (after n turns).unit.toNat * 1024 < 2 ^ 64 := by
  have exact := after_exact n turns (Nat.le_trans (pow_le_succ turns) next)
  have more : 1024 ≤ (after n turns).left := by
    rw [exact.more_iff, after_index]
    exact next
  exact ⟨more, exact.unit_mul_lt more⟩

/-- Up to any unit that is no more than the amount, the search is still to be done from there. -/
theorem unitFor_after (n : UInt64) (turns : Nat) (reached : 1024 ^ (turns + 1) ≤ n.toNat) :
    unitFor (n / 1024) 1024 0 =
      unitFor (after n turns).left (after n turns).unit (after n turns).index := by
  induction turns with
  | zero => rfl
  | succ turns ih =>
      rw [ih (Nat.le_trans (pow_le_succ turns) reached), unitFor, if_pos (after_more n turns reached).1]
      rfl

end Search

theorem unitFor_eq (n : UInt64) (index : Nat) (reached : 1024 ^ (index + 1) ≤ n.toNat)
    (last : n.toNat < 1024 ^ (index + 2)) :
    (Search.after n index).left < 1024 ∧
      unitFor (n / 1024) 1024 0 = ((Search.after n index).unit, index) := by
  have stops : ¬ 1024 ≤ (Search.after n index).left := by
    rw [(Search.after_exact n index reached).more_iff, Search.after_index]
    exact Nat.not_le.mpr last
  constructor
  · exact UInt64.not_le.mp stops
  · rw [Search.unitFor_after n index reached, unitFor, if_neg stops, Search.after_index]

theorem exists_index (n : UInt64) (large : 1024 ≤ n) :
    ∃ index, index ≤ 5 ∧ 1024 ^ (index + 1) ≤ n.toNat ∧ n.toNat < 1024 ^ (index + 2) := by
  have least : 1024 ≤ n.toNat := UInt64.le_iff_toNat_le.mp large
  have positive : 0 < Nat.log 1024 n.toNat := Nat.log_pos (by decide) least
  have bounded : Nat.log 1024 n.toNat < 7 := by
    apply Nat.log_lt_of_lt_pow (by omega)
    calc
      n.toNat < 2 ^ 64 := n.toNat_lt
      _ < 1024 ^ 7 := by decide
  have here : Nat.log 1024 n.toNat - 1 + 1 = Nat.log 1024 n.toNat := by omega
  refine ⟨Nat.log 1024 n.toNat - 1, by omega, ?_, ?_⟩
  · rw [here]
    exact Nat.pow_log_le_self 1024 (by omega)
  · have above := Nat.lt_pow_succ_log_self (by decide : 1 < 1024) n.toNat
    rw [← here] at above
    exact above

/-- The unit that an amount is written in. The search for it takes a turn for each index below that of the unit,
none of them wraps around, and it stops there; the unit has a letter, and it is the greatest that is no more
than the amount. -/
structure Chosen (n unit : UInt64) (index : Nat) : Prop where
  found : unitFor (n / 1024) 1024 0 = (unit, index)
  turns : ∀ turns < index, 1024 ≤ (Search.after n turns).left ∧
    (Search.after n turns).unit.toNat * 1024 < 2 ^ 64
  stops : (Search.after n index).left < 1024
  index_le : index ≤ 5
  exact : unit.toNat = 1024 ^ (index + 1)
  le : unit.toNat ≤ n.toNat
  lt : n.toNat < 1024 * unit.toNat
  written : ∃ valid : index < unitLetters.length, ∀ unitName, text unitName n =
    Fixed.tenths (n.toFloat / unit.toFloat) ++ utf8 " " ++ [Bytes.code unitLetters[index]] ++ utf8 "i" ++
      utf8 unitName

/-- Every amount of 1024 or more, up to the largest there is, has a unit. -/
theorem large_amount_has_unit (n : UInt64) (large : 1024 ≤ n) : ∃ unit index, Chosen n unit index := by
  obtain ⟨index, bound, reached, last⟩ := exists_index n large
  have exact := Search.after_exact n index reached
  have unit : (Search.after n index).unit.toNat = 1024 ^ (index + 1) := by
    rw [exact.unit, Search.after_index]
  obtain ⟨stops, found⟩ := unitFor_eq n index reached last
  refine ⟨(Search.after n index).unit, index, found, ?_, stops, bound, unit, ?_, ?_, ?_⟩
  · intro turns earlier
    apply Search.after_more
    calc
      1024 ^ (turns + 2) ≤ 1024 ^ (index + 1) := Nat.pow_le_pow_right (by decide) (by omega)
      _ ≤ n.toNat := reached
  · rw [unit]
    exact reached
  · calc
      n.toNat < 1024 ^ (index + 2) := last
      _ = 1024 * (Search.after n index).unit.toNat := by
        rw [unit]
        ring
  · have valid : index < unitLetters.length := Nat.lt_succ_of_le bound
    refine ⟨valid, ?_⟩
    intro unitName
    rw [text, if_neg (UInt64.not_lt.mpr large), found]
    simp only [List.getD_eq_getElem?_getD, List.getElem?_eq_getElem valid, Option.getD_some]

theorem large_amount_has_unit_largest :
    (1024 : UInt64) ≤ 18446744073709551615 ∧
      Chosen 18446744073709551615 1152921504606846976 5 ∧
      text "B" 18446744073709551615 =
        Fixed.tenths (UInt64.toFloat 18446744073709551615 / UInt64.toFloat 1152921504606846976) ++
          utf8 " EiB" := by
  obtain ⟨unit, index, chosen⟩ := large_amount_has_unit 18446744073709551615 (by decide)
  have highest : index = 5 := by
    have above : 1024 ^ 6 < 1024 ^ (index + 2) := by
      calc
        1024 ^ 6 < UInt64.toNat 18446744073709551615 := by decide
        _ < 1024 * unit.toNat := chosen.lt
        _ = 1024 ^ (index + 2) := by
          rw [chosen.exact]
          ring
    have further := (Nat.pow_lt_pow_iff_right (by decide)).mp above
    have bound := chosen.index_le
    omega
  subst highest
  have whole : unit = 1152921504606846976 := UInt64.toNat_inj.mp chosen.exact
  subst whole
  obtain ⟨_, written⟩ := chosen.written
  refine ⟨by decide, chosen, ?_⟩
  rw [written "B"]
  simp only [List.append_assoc]
  rfl

end IgaArchive.Amount
