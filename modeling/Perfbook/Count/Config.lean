/-
# The numbers of the limit counters

The limit counters keep their global part in `unsigned long` variables of `w`
bits, with a limit `globalcountmax` that is such a number. `room` is what the
slow paths compute from them, and `lacks` their test.

Key definitions: `Kind`, `Config`, `Config.room`, `Config.lacks`, `Granted`.
Key theorems: `granted_of_not_lacks`, `exceeds_of_lacks`.
-/
import Perfbook.Conc.Sys
import Perfbook.Count.Books

namespace Perfbook
namespace Count

/-- The two ways to change the count: `add_count` and `sub_count`. -/
inductive Kind
  | add
  | sub
deriving DecidableEq

/-- By how much a successful call changes the count. -/
def Kind.change : Kind → ℕ → ℤ
  | add, delta => delta
  | sub, delta => -delta

/-- The call cannot be granted when the count is `x`. -/
def Kind.exceeds (limit : ℕ) : Kind → ℕ → ℤ → Prop
  | add, delta, x => limit < x + delta
  | sub, delta, x => x < delta

/-- The changes that a granted call makes: one, if it changes anything. -/
def once (k : Kind) (delta : ℕ) : List ℤ := if k.change delta = 0 then [] else [k.change delta]

/-- The width of `unsigned long` and the limit. -/
structure Config where
  w : ℕ
  globalcountmax : ℕ
  wide : 32 ≤ w
  fits : globalcountmax < 2 ^ w

namespace Config

theorem wide_64 : 32 ≤ 64 := by decide

theorem ten_fits : 10 < 2 ^ 64 := by decide

variable (cfg : Config)

/-- `a - b` on `unsigned long`. -/
def usub (a b : ℕ) : ℕ := if b ≤ a then a - b else a + 2 ^ cfg.w - b

/-- `a + b` on `unsigned long`. -/
def uadd (a b : ℕ) : ℕ := (a + b) % 2 ^ cfg.w

/-- `globalcountmax - globalcount - globalreserve`. -/
def room (globalcount globalreserve : ℕ) : ℕ :=
  cfg.usub (cfg.usub cfg.globalcountmax globalcount) globalreserve

/-- The test of the slow path fails: there is no room, or not enough to take. -/
def lacks (globalcount globalreserve : ℕ) : Kind → ℕ → Bool
  | .add, delta => cfg.room globalcount globalreserve < delta
  | .sub, delta => globalcount < delta

end Config

/-- The change fits. -/
def Granted (cfg : Config) (globalcount globalreserve : ℕ) : Kind → ℕ → Prop
  | .add, delta => globalcount + globalreserve + delta ≤ cfg.globalcountmax
  | .sub, delta => delta ≤ globalcount

variable {cfg : Config} {a b : ℕ} {k : Kind} {delta globalcount globalreserve : ℕ}

theorem usub_of_le (h : b ≤ a) : cfg.usub a b = a - b := if_pos h

theorem uadd_of_lt (h : a + b < 2 ^ cfg.w) : cfg.uadd a b = a + b := Nat.mod_eq_of_lt h

theorem room_eq (h : globalcount + globalreserve ≤ cfg.globalcountmax) :
    cfg.room globalcount globalreserve = cfg.globalcountmax - globalcount - globalreserve := by
  have h1 : cfg.usub cfg.globalcountmax globalcount = cfg.globalcountmax - globalcount :=
    usub_of_le (by omega)
  rw [Config.room, h1, usub_of_le (by omega)]

/-- What the test of the slow path says. -/
theorem granted_of_not_lacks (h : globalcount + globalreserve ≤ cfg.globalcountmax)
    (hk : ¬ cfg.lacks globalcount globalreserve k delta = true) :
    Granted cfg globalcount globalreserve k delta := by
  cases k with
  | add =>
    rw [Config.lacks, room_eq h, decide_eq_true_iff] at hk
    rw [Granted]
    omega
  | sub =>
    rw [Config.lacks, decide_eq_true_iff] at hk
    exact Nat.le_of_not_lt hk

theorem exceeds_of_lacks (h : globalcount + globalreserve ≤ cfg.globalcountmax)
    (hr : globalreserve = 0) (hk : cfg.lacks globalcount globalreserve k delta = true) :
    k.exceeds cfg.globalcountmax delta globalcount := by
  cases k with
  | add =>
    rw [Config.lacks, room_eq h, decide_eq_true_iff] at hk
    rw [Kind.exceeds]
    omega
  | sub =>
    rw [Config.lacks, decide_eq_true_iff] at hk
    rw [Kind.exceeds]
    omega

end Count
end Perfbook
