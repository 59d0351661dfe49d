/-
# The grace period of `rcu_nest32`

`word w p j` is the word of a reader of phase `p` that is nested `j` deep. A
reader keeps its phase as long as it is in its section, however late it stored
it. `synchronize_rcu` waits for the readers of both phases, one after the
other, so it waits for every reader that was in its section when the call
began.

Key definitions: `word`, `phase`, `At`, `Inv`.
Key theorems: `oldPhase_eq_zero`, `inv_step`, `nest32_grace_period`.
-/
import Perfbook.Conc.Lock
import Perfbook.Rcu.Nest32

namespace Perfbook
namespace Rcu
namespace Nest32

open Conc

/-! ### The arithmetic of the words -/

section Words

variable {w j : ℕ} {p q : Bool}

/-- Phase `p`, nested `j` deep. -/
def word (w : ℕ) (p : Bool) (j : ℕ) : BitVec w := BitVec.ofNat w (2 ^ 31 * p.toNat + j)

/-- The phase of a word. -/
def phase (x : BitVec w) : Bool := x.getLsbD 31

theorem word_succ (w : ℕ) (p : Bool) (j : ℕ) : word w p j + 1 = word w p (j + 1) := by
  rw [word, word, show (1 : BitVec w) = BitVec.ofNat w 1 from rfl, ← BitVec.ofNat_add]
  rfl

theorem word_pred (w : ℕ) (p : Bool) (j : ℕ) : word w p (j + 1) - 1 = word w p j := by
  rw [← word_succ, BitVec.add_sub_cancel]

theorem getLsbD_word (hj : j < 2 ^ 31) (i : ℕ) : (word w p j).getLsbD i =
    (decide (i < w) && if i < 31 then j.testBit i else p.toNat.testBit (i - 31)) := by
  rw [word, BitVec.getLsbD_ofNat, Nat.testBit_two_pow_mul_add _ hj]

theorem getLsbD_mask (i : ℕ) : (rcuGpCtrNestMask.setWidth w).getLsbD i =
    (decide (i < w) && decide (i < 31)) := by
  have hm : rcuGpCtrNestMask = BitVec.ofNat 32 (2 ^ 31 - 1) := by decide
  rw [hm, BitVec.getLsbD_setWidth, BitVec.getLsbD_ofNat, Nat.testBit_two_pow_sub_one]
  by_cases hi : i < 31
  · simp [hi]
    omega
  · simp [hi]

theorem phase_word (hw : 32 ≤ w) (hj : j < 2 ^ 31) : phase (word w p j) = p := by
  rw [phase, getLsbD_word hj, decide_eq_true (show 31 < w by omega)]
  cases p <;> rfl

theorem nest_word (hj : j < 2 ^ 31) : nest (word w p j) = BitVec.ofNat w j := by
  refine BitVec.eq_of_getLsbD_eq fun i hi => ?_
  rw [nest, BitVec.getLsbD_and, getLsbD_word hj, getLsbD_mask, BitVec.getLsbD_ofNat]
  by_cases h31 : i < 31
  · simp [hi, h31]
  · have hb : j.testBit i = false :=
      Nat.testBit_lt_two_pow (lt_of_lt_of_le hj (Nat.pow_le_pow_right (by omega) (by omega)))
    simp [hi, h31, hb]

theorem ofNat_toNat (hw : 32 ≤ w) (hj : j < 2 ^ 31) : (BitVec.ofNat w j).toNat = j := by
  have hp : 2 ^ 31 ≤ 2 ^ w := Nat.pow_le_pow_right (by omega) (by omega)
  rw [BitVec.toNat_ofNat, Nat.mod_eq_of_lt (by omega)]

theorem nest_word_eq_zero (hw : 32 ≤ w) (hj : j < 2 ^ 31) : nest (word w p j) = 0 ↔ j = 0 := by
  rw [nest_word hj]
  constructor
  · intro h
    have := congrArg BitVec.toNat h
    rwa [ofNat_toNat hw hj] at this
  · rintro rfl
    rfl

/-- The cut of a word has the same phase and the same nesting bits. -/
theorem toInt32_word (hw : 32 ≤ w) (hj : j < 2 ^ 31) : toInt32 (word w p j) = word 32 p j := by
  refine BitVec.eq_of_getLsbD_eq fun i hi => ?_
  rw [toInt32, BitVec.getLsbD_setWidth, getLsbD_word hj, getLsbD_word hj,
    decide_eq_true (show i < w by omega), Bool.true_and]

theorem nestInt_word (hj : j < 2 ^ 31) : nestInt (word 32 p j) = 0 ↔ j = 0 :=
  nest_word_eq_zero (w := 32) le_rfl hj

/-- **The comparison of `rcu_old_gp_ongoing`** is that of the phases. -/
theorem oldPhase_eq_zero (hw : 32 ≤ w) (v : BitVec 32) (c : BitVec w) :
    oldPhase v c = 0 ↔ phase v = phase c := by
  have hm : ∀ i, ((~~~rcuGpCtrNestMask).setWidth w).getLsbD i = decide (i = 31) := by
    intro i
    have hb : ~~~rcuGpCtrNestMask = BitVec.ofNat 32 (2 ^ 31) := by decide
    rw [hb, BitVec.getLsbD_setWidth, BitVec.getLsbD_ofNat, Nat.testBit_two_pow]
    by_cases hi : i = 31
    · subst hi
      simp
      omega
    · simp [hi, Ne.symm hi]
  have hbit : ∀ i, (oldPhase v c).getLsbD i = (decide (i = 31) && (phase v ^^ phase c)) := by
    intro i
    rw [oldPhase, BitVec.getLsbD_and, hm, BitVec.getLsbD_xor, Bool.and_comm]
    by_cases hi : i = 31
    · subst hi
      rw [BitVec.getLsbD_signExtend, decide_eq_true (show 31 < w by omega)]
      rfl
    · simp [hi]
  have h0 : ∀ i, (0 : BitVec w).getLsbD i = false := fun _ => BitVec.getLsbD_zero
  constructor
  · intro h
    have := hbit 31
    rw [h, h0, decide_eq_true rfl, Bool.true_and] at this
    simpa using this.symm
  · intro h
    refine BitVec.eq_of_getLsbD_eq fun i _ => ?_
    rw [hbit, h, Bool.xor_self, Bool.and_false, h0]

/-- `rcu_gp_ctr ^= RCU_GP_CTR_BOTTOM_BIT`. -/
theorem flip_word (p : Bool) (hj : j < 2 ^ 31) :
    word w p j ^^^ rcuGpCtrBottomBit.setWidth w = word w (!p) j := by
  refine BitVec.eq_of_getLsbD_eq fun i hi => ?_
  have hb : rcuGpCtrBottomBit = BitVec.ofNat 32 (2 ^ 31) := rfl
  rw [BitVec.getLsbD_xor, getLsbD_word hj, getLsbD_word hj, hb, BitVec.getLsbD_setWidth,
    BitVec.getLsbD_ofNat, Nat.testBit_two_pow]
  by_cases h31 : i < 31
  · have : 31 ≠ i := by omega
    simp [hi, h31, this]
  · obtain ⟨k, rfl⟩ := Nat.exists_eq_add_of_le (Nat.le_of_not_lt h31)
    cases k with
    | zero => cases p <;> simp [hi]
    | succ k =>
      have hk : Nat.testBit 1 (k + 1) = false := by simp [Nat.testBit_succ]
      have h31' : ¬ 31 + (k + 1) < 31 := by omega
      cases p <;> simp [hi, hk, h31']

end Words

/-! ### The invariant -/

variable {w n : ℕ}

/-- In `synchronize_rcu`, with `rcu_gp_lock`. -/
def Loc.holding : Loc w n → Bool
  | .flipRead _ | .flipWrite _ _ | .scanWord _ _ | .scanCtr _ _ _ | .syncUnlock => true
  | _ => false

/-- The readers that the call of `t` waits for, as far as their phases tell,
when the scan is at thread `i`: after the first flip the ones that were passed
have the new phase, after the second flip no other is left before `i`. -/
def Waiting (s : St w n) (t : Fin n) (second : Bool) (i : ℕ) : Prop :=
  ∀ u, s.sec.pre t u = true →
    if second then phase (s.rcuReaderGp u) ≠ phase s.rcuGpCtr ∧ i ≤ u.val
    else u.val < i → phase (s.rcuReaderGp u) = phase s.rcuGpCtr

/-- Those that a call waits for before its second flip have the phase of the first. -/
def Flipping (s : St w n) (t : Fin n) (second : Bool) : Prop :=
  second = true → ∀ u, s.sec.pre t u = true → phase (s.rcuReaderGp u) = phase s.rcuGpCtr

/-- What holds of a thread at a place of the code. -/
def At (s : St w n) (t : Fin n) : Loc w n → Prop
  | .lockRead => s.sec.depth t + 1 < 2 ^ 31
  | .lockCtr => s.sec.depth t = 0
  | .lockWrite x => s.sec.depth t + 1 < 2 ^ 31 ∧ ∃ p, x = word w p (s.sec.depth t + 1) ∧
      (0 < s.sec.depth t → p = phase (s.rcuReaderGp t))
  | .unlockRead => 0 < s.sec.depth t
  | .unlockWrite v => 0 < s.sec.depth t ∧ v = s.rcuReaderGp t
  | .flipRead second => Flipping s t second
  | .flipWrite second v => Flipping s t second ∧ v = s.rcuGpCtr
  | .scanWord second u => Waiting s t second u
  | .scanCtr second u v => Waiting s t second u ∧
      (s.sec.pre t u = true → phase v = phase (s.rcuReaderGp u))
  | .syncUnlock | .syncReturn => s.sec.Waited t
  | _ => True

structure Inv (s : St w n) : Prop where
  ok : s.sec.Ok
  depth : ∀ u, s.sec.depth u < 2 ^ 31
  word : ∀ u, s.rcuReaderGp u = word w (phase (s.rcuReaderGp u)) (s.sec.depth u)
  ctr : s.rcuGpCtr = Nest32.word w (phase s.rcuGpCtr) 1
  lock : LockedBy Loc.holding s.rcuGpLock s.loc
  loc : ∀ t, At s t (s.loc t)

variable {s s' : St w n} {t : Fin n} {l : Loc w n} {second : Bool} {i : ℕ}

/-- A thread is not disturbed as long as the readers it waits for keep their
phases, and the counter does not change while it has the lock. -/
theorem At.frame (h : At s t l) (hd : s'.sec.depth t = s.sec.depth t)
    (hw : s'.rcuReaderGp t = s.rcuReaderGp t) (hc : l.holding = true → s'.rcuGpCtr = s.rcuGpCtr)
    (hp : ∀ u, s'.sec.pre t u = true →
      s.sec.pre t u = true ∧ phase (s'.rcuReaderGp u) = phase (s.rcuReaderGp u)) : At s' t l := by
  have hwaited : s.sec.Waited t → s'.sec.Waited t := fun hs => hs.mono fun u hu => (hp u hu).1
  have hflip : ∀ {b}, s'.rcuGpCtr = s.rcuGpCtr → Flipping s t b → Flipping s' t b := by
    intro b hc hf hb u hu
    obtain ⟨hu, hph⟩ := hp u hu
    rw [hph, hc]
    exact hf hb u hu
  have hwait : ∀ {b i}, s'.rcuGpCtr = s.rcuGpCtr → Waiting s t b i → Waiting s' t b i := by
    intro b i hc hf u hu
    obtain ⟨hu, hph⟩ := hp u hu
    rw [hph, hc]
    exact hf u hu
  cases l with
  | idle | syncLock => trivial
  | lockRead | lockCtr | unlockRead =>
    simp only [At, hd] at h ⊢
    exact h
  | lockWrite x =>
    simp only [At, hd, hw] at h ⊢
    exact h
  | unlockWrite v =>
    simp only [At, hd, hw] at h ⊢
    exact h
  | flipRead second => exact hflip (hc rfl) h
  | flipWrite second v => exact ⟨hflip (hc rfl) h.1, h.2.trans (hc rfl).symm⟩
  | scanWord second u => exact hwait (hc rfl) h
  | scanCtr second u v =>
    refine ⟨hwait (hc rfl) h.1, fun hu => ?_⟩
    obtain ⟨hu, hph⟩ := hp u hu
    rw [hph]
    exact h.2 hu
  | syncUnlock | syncReturn => exact hwaited h

/-- A thread goes on to `l`; it may change its own word, and the counter if it has the lock. -/
theorem Inv.move (h : Inv s) (hloc : s'.loc = Function.update s.loc t l) (hok : s'.sec.Ok)
    (hd : ∀ v, v ≠ t → s'.sec.depth v = s.sec.depth v ∧ s'.rcuReaderGp v = s.rcuReaderGp v)
    (hp : ∀ v u, v ≠ t → s'.sec.pre v u = true →
      s.sec.pre v u = true ∧ phase (s'.rcuReaderGp u) = phase (s.rcuReaderGp u))
    (hc : s'.rcuGpCtr = s.rcuGpCtr ∨ (s.loc t).holding = true)
    (hctr : s'.rcuGpCtr = Nest32.word w (phase s'.rcuGpCtr) 1)
    (hlock : LockedBy Loc.holding s'.rcuGpLock s'.loc) (hdt : s'.sec.depth t < 2 ^ 31)
    (hwt : s'.rcuReaderGp t = Nest32.word w (phase (s'.rcuReaderGp t)) (s'.sec.depth t))
    (hl : At s' t l) : Inv s' where
  ok := hok
  depth u := by
    by_cases hu : u = t
    · rwa [hu]
    · rw [(hd u hu).1]
      exact h.depth u
  word u := by
    by_cases hu : u = t
    · rwa [hu]
    · rw [(hd u hu).1, (hd u hu).2]
      exact h.word u
  ctr := hctr
  lock := hlock
  loc := by
    refine forall_update (P := At s') hloc hl fun v hv => (h.loc v).frame (hd v hv).1 (hd v hv).2
      (fun hh => hc.resolve_right fun ht => hv (h.lock.eq ht hh)) fun u => hp v u hv

/-- A thread goes on to `l`, and nothing else changes. -/
theorem Inv.goto (h : Inv s) (hl : At s t l) (hh : l.holding = (s.loc t).holding) :
    Inv (s.goto t l) :=
  h.move rfl h.ok (fun _ _ => ⟨rfl, rfl⟩) (fun _ _ _ hu => ⟨hu, rfl⟩) (.inl rfl) h.ctr
    (h.lock.stay rfl hh) (h.depth t) (h.word t) (hl.frame rfl rfl (fun _ => rfl) fun _ hu => ⟨hu, rfl⟩)

theorem holding_scanFrom : (scanFrom second i : Loc w n).holding = true := by
  refine scan_rec (P := fun l : Loc w n => l.holding = true) (fun _ _ => rfl) fun _ => ?_
  cases second <;> rfl

/-- The scan goes on. -/
theorem at_scanFrom (h : Waiting s t second i) : At s t (scanFrom second i) := by
  refine scan_rec (P := At s t) (fun v hv => by rw [← hv] at h; exact h) fun hn => ?_
  cases second with
  | false =>
    -- the first flip is through: all readers that are waited for have its phase
    intro _ u hu
    have hlt := u.isLt
    have := h u hu
    simp only [Bool.false_eq_true, if_false] at this
    exact this (by omega)
  | true => exact Sections.waited_of_le fun u hu => hn.trans (h u hu).2

/-- The scan goes past a thread that is not waited for, or has the phase of the counter. -/
theorem Waiting.pass {u : Fin n} (h : Waiting s t second u)
    (hu : s.sec.pre t u = true → phase (s.rcuReaderGp u) = phase s.rcuGpCtr) :
    Waiting s t second (u + 1) := by
  intro v hv
  have hv' := h v hv
  cases second with
  | false =>
    simp only [Bool.false_eq_true, if_false] at hv' ⊢
    intro hlt
    rcases Nat.lt_succ_iff_lt_or_eq.mp hlt with hlt | heq
    · exact hv' hlt
    · obtain rfl := Fin.ext heq
      exact hu hv
  | true =>
    obtain ⟨hph, hle⟩ := hv'
    refine ⟨hph, ?_⟩
    have hne : u.val ≠ v.val := fun heq => by
      obtain rfl := Fin.ext heq
      exact hph (hu hv)
    omega

/-! ### The steps -/

/-- `inv_step` for the steps of a reader. -/
theorem inv_reader (hw : 32 ≤ w) (h : Inv s) (hn : stepThread t s = some s')
    (hl : s.loc t = .lockRead ∨ s.loc t = .lockCtr ∨ (∃ x, s.loc t = .lockWrite x) ∨
      s.loc t = .unlockRead ∨ ∃ v, s.loc t = .unlockWrite v) : Inv s' := by
  have ha := h.loc t
  have hd := h.depth t
  unfold stepThread at hn
  rcases hl with hl | hl | ⟨x, hl⟩ | hl | ⟨v, hl⟩ <;> rw [hl] at hn ha <;> dsimp only at hn
  · have hz : nest (s.rcuReaderGp t) = 0 ↔ s.sec.depth t = 0 := by
      rw [h.word t]
      exact nest_word_eq_zero hw hd
    split at hn <;> rename_i h0 <;> cases hn
    · exact h.goto (hz.mp h0) (by rw [hl]; rfl)
    · refine h.goto ⟨ha, _, ?_, fun _ => rfl⟩ (by rw [hl]; rfl)
      rw [← word_succ, ← h.word t]
  · cases hn
    have ha : s.sec.depth t = 0 := ha
    refine h.goto ⟨by omega, phase s.rcuGpCtr, ?_, fun hp => by omega⟩ (by rw [hl]; rfl)
    rw [ha, zero_add]
    exact h.ctr
  · cases hn
    obtain ⟨hlt, p, rfl, hp⟩ := ha
    have hself : ({ s.publish t (word w p (s.sec.depth t + 1)) with sec := s.sec.enter t }.goto t
        .idle).rcuReaderGp t = word w p (s.sec.depth t + 1) := Function.update_self ..
    refine h.move rfl (h.ok.enter t) (fun v hv => ⟨Sections.enter_depth_ne hv, Function.update_of_ne hv ..⟩)
      (fun v u _ hu => ⟨hu, ?_⟩) (.inl rfl) h.ctr (h.lock.stay rfl (by rw [hl]; rfl)) ?_ ?_ trivial
    · by_cases hut : u = t
      · subst hut
        rw [hself, phase_word hw hlt]
        exact hp (h.ok v u hu)
      · exact congrArg phase (Function.update_of_ne hut ..)
    · show (s.sec.enter t).depth t < _
      rwa [Sections.enter_depth]
    · rw [hself, phase_word hw hlt]
      show _ = word w p ((s.sec.enter t).depth t)
      rw [Sections.enter_depth]
  · cases hn
    exact h.goto ⟨ha, rfl⟩ (by rw [hl]; rfl)
  · cases hn
    obtain ⟨hpos, rfl⟩ := ha
    obtain ⟨d, hd1⟩ : ∃ d, s.sec.depth t = d + 1 := ⟨s.sec.depth t - 1, by omega⟩
    have hself : ({ s.publish t (s.rcuReaderGp t - 1) with sec := s.sec.leave t }.goto t
        .idle).rcuReaderGp t = word w (phase (s.rcuReaderGp t)) d := by
      refine (Function.update_self ..).trans ?_
      rw [← word_pred, ← hd1, ← h.word t]
    refine h.move rfl (h.ok.leave t) (fun v hv => ⟨Sections.leave_depth_ne hv, Function.update_of_ne hv ..⟩)
      (fun v u _ hu => ⟨(Sections.pre_of_leave hu).1, ?_⟩) (.inl rfl) h.ctr
      (h.lock.stay rfl (by rw [hl]; rfl)) ?_ ?_ trivial
    · by_cases hut : u = t
      · subst hut
        rw [hself, phase_word hw (by omega)]
      · exact congrArg phase (Function.update_of_ne hut ..)
    · show (s.sec.leave t).depth t < _
      rw [Sections.leave_depth]
      omega
    · rw [hself, phase_word hw (by omega)]
      show _ = word w _ ((s.sec.leave t).depth t)
      rw [Sections.leave_depth, hd1]
      rfl

/-- `inv_step` for the steps of `synchronize_rcu`. -/
theorem inv_updater (hw : 32 ≤ w) (h : Inv s) (hn : stepThread t s = some s')
    (hl : ∀ x v, s.loc t ≠ .lockRead ∧ s.loc t ≠ .lockCtr ∧ s.loc t ≠ .lockWrite x ∧
      s.loc t ≠ .unlockRead ∧ s.loc t ≠ .unlockWrite v) : Inv s' := by
  have ha := h.loc t
  unfold stepThread at hn
  cases hloc : s.loc t with
  | idle => simp [hloc] at hn
  | lockRead => exact absurd hloc (hl 0 0).1
  | lockCtr => exact absurd hloc (hl 0 0).2.1
  | lockWrite x => exact absurd hloc (hl x 0).2.2.1
  | unlockRead => exact absurd hloc (hl 0 0).2.2.2.1
  | unlockWrite v => exact absurd hloc (hl 0 v).2.2.2.2
  | syncLock =>
    rw [hloc] at hn ha
    dsimp only at hn
    split at hn <;> rename_i hfree <;> cases hn
    have hlock := h.lock
    rw [hfree] at hlock
    exact h.move (l := .flipRead false) rfl h.ok (fun _ _ => ⟨rfl, rfl⟩) (fun _ _ _ hu => ⟨hu, rfl⟩)
      (.inl rfl) h.ctr (hlock.take rfl rfl) (h.depth t) (h.word t) fun hs => nomatch hs
  | flipRead second =>
    rw [hloc] at hn ha
    cases hn
    exact h.goto ⟨ha, rfl⟩ (by rw [hloc]; rfl)
  | flipWrite second v =>
    rw [hloc] at hn ha
    cases hn
    obtain ⟨hf, rfl⟩ := ha
    have hself : s.rcuGpCtr ^^^ rcuGpCtrBottomBit.setWidth w = word w (!phase s.rcuGpCtr) 1 := by
      rw [← flip_word _ (by omega), ← h.ctr]
    have hph : phase (s.rcuGpCtr ^^^ rcuGpCtrBottomBit.setWidth w) = !phase s.rcuGpCtr := by
      rw [hself, phase_word hw (by omega)]
    refine h.move rfl h.ok (fun _ _ => ⟨rfl, rfl⟩) (fun _ _ _ hu => ⟨hu, rfl⟩)
      (.inr (by rw [hloc]; rfl)) ?_ (h.lock.stay rfl (by rw [hloc]; exact holding_scanFrom)) (h.depth t)
      (h.word t) (at_scanFrom fun u hu => ?_)
    · show _ = word w (phase (s.rcuGpCtr ^^^ rcuGpCtrBottomBit.setWidth w)) 1
      rw [hph]
      exact hself
    · cases second with
      | false => exact fun hlt => absurd hlt (Nat.not_lt_zero _)
      | true =>
        refine ⟨?_, Nat.zero_le _⟩
        show phase (s.rcuReaderGp u) ≠ phase (s.rcuGpCtr ^^^ rcuGpCtrBottomBit.setWidth w)
        rw [hph, hf rfl u hu]
        simp
  | scanWord second u =>
    rw [hloc] at hn ha
    dsimp only at hn
    have hcut : toInt32 (s.rcuReaderGp u) = word 32 (phase (s.rcuReaderGp u)) (s.sec.depth u) := by
      rw [← toInt32_word hw (h.depth u), ← h.word u]
    split at hn <;> rename_i hz <;> cases hn
    · have h0 : s.sec.depth u = 0 := by
        rw [hcut, nestInt_word (h.depth u)] at hz
        exact hz
      refine h.goto (at_scanFrom (Waiting.pass ha fun hu => ?_)) (by rw [hloc]; exact holding_scanFrom)
      have := h.ok t u hu
      omega
    · refine h.goto ⟨ha, fun _ => ?_⟩ (by rw [hloc]; rfl)
      rw [hcut, phase_word le_rfl (h.depth u)]
  | scanCtr second u v =>
    rw [hloc] at hn ha
    dsimp only at hn
    obtain ⟨hwait, hv⟩ := ha
    split at hn <;> rename_i hz <;> cases hn
    · refine h.goto (at_scanFrom (hwait.pass fun hu => ?_)) (by rw [hloc]; exact holding_scanFrom)
      rw [← hv hu]
      exact (oldPhase_eq_zero hw v _).mp hz
    · exact h.goto hwait (by rw [hloc]; rfl)
  | syncUnlock =>
    rw [hloc] at hn ha
    cases hn
    exact h.move (l := .syncReturn) rfl h.ok (fun _ _ => ⟨rfl, rfl⟩) (fun _ _ _ hu => ⟨hu, rfl⟩)
      (.inl rfl) h.ctr (h.lock.drop rfl (by rw [hloc]; rfl) rfl) (h.depth t) (h.word t) ha
  | syncReturn =>
    rw [hloc] at hn
    cases hn
    exact h.goto trivial (by rw [hloc]; rfl)

/-- **The step lemma.** -/
theorem inv_step (hw : 32 ≤ w) {a : Act n} (h : Inv s) (hn : next a s = some s') : Inv s' := by
  cases a with
  | rcuReadLock t =>
    simp only [next] at hn
    split at hn <;> rename_i hc <;> cases hn
    exact h.goto hc.2 (by rw [hc.1]; rfl)
  | rcuReadUnlock t =>
    simp only [next] at hn
    split at hn <;> rename_i hc <;> cases hn
    exact h.goto hc.2 (by rw [hc.1]; rfl)
  | synchronizeRcu t =>
    simp only [next] at hn
    split at hn <;> rename_i hc <;> cases hn
    exact h.move (l := .syncLock) rfl (h.ok.observe t) (fun _ _ => ⟨rfl, rfl⟩)
      (fun v u hv hu => ⟨by rwa [← Sections.observe_pre_ne hv], rfl⟩) (.inl rfl) h.ctr
      (h.lock.stay rfl (by rw [hc]; rfl)) (h.depth t) (h.word t) trivial
  | step t =>
    by_cases hl : s.loc t = .lockRead ∨ s.loc t = .lockCtr ∨ (∃ x, s.loc t = .lockWrite x) ∨
      s.loc t = .unlockRead ∨ ∃ v, s.loc t = .unlockWrite v
    · exact inv_reader hw h hn hl
    · exact inv_updater hw h hn fun x v => by
        refine ⟨fun he => hl ?_, fun he => hl ?_, fun he => hl ?_, fun he => hl ?_, fun he => hl ?_⟩ <;> simp [he]

theorem inv_init (hw : 32 ≤ w) (h : Init s) : Inv s where
  ok t u hp := by simp [h.sec] at hp
  depth u := by simp [h.sec]
  word u := by
    have h0 : (0 : BitVec w) = word w false 0 := rfl
    rw [h.word u, h0, phase_word hw (by omega), h.sec]
  ctr := by
    have h1 : (1 : BitVec w) = word w false 1 := rfl
    rw [h.ctr, h1, phase_word hw (by omega)]
  lock t := by simp [h.lock, h.loc t, Loc.holding]
  loc t := by
    rw [h.loc t]
    trivial

/-- **The grace-period guarantee**, for a `long` of 32 bits or more. -/
theorem nest32_grace_period (hw : 32 ≤ w) (h : (sys w n).Reach Sys.always s) :
    GracePeriod s ∧ NestField s := by
  have hi := h.inv (fun _ => inv_init hw) fun _ _ _ hi _ hn => inv_step hw hi hn
  constructor
  · intro t ht
    have := hi.loc t
    rwa [ht] at this
  · intro t
    rw [hi.word t, nest_word (hi.depth t), ofNat_toNat hw (hi.depth t)]

/-! ### A run -/

/-- `rcu_init`, two threads. -/
def start : St 64 2 where
  rcuGpCtr := 1
  rcuReaderGp _ := 0
  rcuGpLock := none
  loc _ := .idle
  sec := ⟨fun _ => 0, fun _ _ => false⟩

theorem start_init : Init start := ⟨rfl, fun _ => rfl, rfl, fun _ => rfl, rfl⟩

/-- Thread 0 samples the phase and stalls while thread 1 runs `synchronize_rcu`
to the end of the first flip; then it enters its section, with the old phase. -/
def staleReader : List (Act 2) :=
  [.rcuReadLock 0, .step 0, .step 0, .synchronizeRcu 1] ++ List.replicate 5 (.step 1) ++
    .step 0 :: List.replicate 6 (.step 1)

theorem nest32_grace_period_stale : ∃ s, (sys 64 2).Reach Sys.always s ∧ s.loc 1 = .syncReturn ∧
    s.sec.depth 0 = 1 ∧ GracePeriod s ∧ NestField s := by
  have hrun : ((sys 64 2).run Sys.always staleReader start).map (fun s => (s.loc 1, s.sec.depth 0)) =
      some (.syncReturn, 1) := by
    decide
  obtain ⟨s, hs, hd⟩ := Option.map_eq_some_iff.mp hrun
  obtain ⟨hl, hd⟩ := Prod.mk.inj hd
  have hr := Sys.run_reach (.init start_init) hs
  exact ⟨s, hr, hl, hd, nest32_grace_period (by decide) hr⟩

end Nest32
end Rcu
end Perfbook
