/-
# `defer/rcu_nest_qs.c`, `rcu_nest_qs.h`: nestable quiescent-state RCU

A thread has two words. `rcu_reader_gp` is its own: the grace-period number
sampled by the outermost `rcu_read_lock` in the high bits, the nesting depth in
the low seven. `rcu_reader_qs_gp` is what it reports: `rcu_gp_ctr + 1` outside
of sections, its first word inside of them (which so leaks the nesting depth
into the report), the bare counter when it goes offline. `synchronize_rcu`
advances the counter by 128 under `rcu_gp_lock` and waits while the low bits of
a report are not 0 and the report is lower than the counter. Each read or write
of a shared word is one step; the words are natural numbers, as the counter
does not wrap.

A report made in a section shows the number sampled when the section began, so
it is as old as the section (`Old`).

Key definitions: `Loc`, `St`, `stepThread`, `sys`, `Old`, `Inv`.
Key theorems: `inv_step`, `qs_grace_period`.
-/
import Perfbook.Rcu.Qs

namespace Perfbook
namespace Rcu
namespace NestQs

open Conc
open Qs (Report)

/-- `RCU_GP_CTR_BOTTOM_BIT`, `1 << RCU_GP_CTR_SHIFT`. -/
def rcuGpCtrBottomBit : ℕ := 1 <<< 7

/-- `RCU_GP_CTR_NEST_MASK`. -/
def rcuGpCtrNestMask : ℕ := rcuGpCtrBottomBit - 1

/-- The nesting bits of a word. -/
def nest (x : ℕ) : ℕ := x &&& rcuGpCtrNestMask

/-- Where a thread is in the functions. -/
inductive Loc (n : ℕ)
  | idle
  /-- `rcu_read_lock`, before `tmp = rcu_gp_ctr` -/
  | lockCtr
  /-- before the store to `rcu_reader_gp` -/
  | lockWrite (x : ℕ)
  /-- a report outside of sections, before reading `rcu_gp_ctr` -/
  | report (r : Report)
  /-- before the store to `rcu_reader_qs_gp` -/
  | reportWrite (r : Report) (x : ℕ)
  /-- `synchronize_rcu`, before `spin_lock(&rcu_gp_lock)` -/
  | syncLock
  /-- before reading and writing `rcu_gp_ctr` -/
  | syncRead
  | syncWrite (v : ℕ)
  /-- the wait loop for thread `u`, before `rcu_gp_ongoing(u)` -/
  | scanNest (u : Fin n)
  /-- before reading its report for the comparison -/
  | scanGp (u : Fin n)
  /-- before reading `rcu_gp_ctr` for the comparison with `x` -/
  | scanCtr (u : Fin n) (x : ℕ)
  /-- before `spin_unlock(&rcu_gp_lock)` -/
  | syncUnlock
  /-- before the return -/
  | syncReturn
deriving DecidableEq

structure St (n : ℕ) where
  rcuGpCtr : ℕ
  rcuReaderGp : Fin n → ℕ
  rcuReaderQsGp : Fin n → ℕ
  rcuGpLock : Option (Fin n)
  loc : Fin n → Loc n
  /-- history: `rcu_thread_online` was called, and not `rcu_thread_offline` since -/
  online : Fin n → Bool
  /-- history: the sections -/
  sec : Sections (Fin n)

/-- A thread starts a call or takes its next step. -/
inductive Act (n : ℕ)
  | rcuReadLock (t : Fin n)
  | rcuReadUnlock (t : Fin n)
  | report (t : Fin n) (r : Report)
  | synchronizeRcu (t : Fin n)
  | step (t : Fin n)

variable {n : ℕ}

def St.goto (s : St n) (t : Fin n) (l : Loc n) : St n :=
  { s with loc := Function.update s.loc t l }

/-- A store to `rcu_reader_gp` of `t`. -/
def St.setGp (s : St n) (t : Fin n) (x : ℕ) : St n :=
  { s with rcuReaderGp := Function.update s.rcuReaderGp t x }

/-- The wait loop goes on with thread `i`. -/
def scanFrom (i : ℕ) : Loc n := scan .scanNest .syncUnlock i

/-- The next step of thread `t`. -/
def stepThread (t : Fin n) (s : St n) : Option (St n) :=
  match s.loc t with
  | .idle => none
  | .lockCtr => some (s.goto t (.lockWrite (s.rcuGpCtr + 1)))
  | .lockWrite x => some ({ s.setGp t x with sec := s.sec.enter t }.goto t .idle)
  | .report r => some (s.goto t (.reportWrite r (r.word s.rcuGpCtr)))
  | .reportWrite r x =>
    some ({ s with
      rcuReaderQsGp := Function.update s.rcuReaderQsGp t x
      online := Function.update s.online t (r.online? (s.online t)) }.goto t .idle)
  | .syncLock =>
    if s.rcuGpLock = none then some ({ s with rcuGpLock := some t }.goto t .syncRead) else none
  | .syncRead => some (s.goto t (.syncWrite s.rcuGpCtr))
  | .syncWrite v => some ({ s with rcuGpCtr := v + rcuGpCtrBottomBit }.goto t (scanFrom 0))
  | .scanNest u =>
    if nest (s.rcuReaderQsGp u) ≠ 0 then some (s.goto t (.scanGp u))
    else some (s.goto t (scanFrom (u + 1)))
  | .scanGp u => some (s.goto t (.scanCtr u (s.rcuReaderQsGp u)))
  | .scanCtr u x =>
    if (x : ℤ) - s.rcuGpCtr < 0 then some (s.goto t (.scanNest u))
    else some (s.goto t (scanFrom (u + 1)))
  | .syncUnlock => some ({ s with rcuGpLock := none }.goto t .syncReturn)
  | .syncReturn => some (s.goto t .idle)

/-- What an action does. A thread enters a section only while it is online, no
deeper than the nesting bits can count, goes on- and offline only outside of
sections, and calls `rcu_quiescent_state` anywhere. What it does with its own
`rcu_reader_gp` goes with the start of the call. -/
def next : Act n → St n → Option (St n)
  | .rcuReadLock t, s =>
    if s.loc t = .idle ∧ s.online t = true ∧ s.sec.depth t < rcuGpCtrNestMask then
      if nest (s.rcuReaderGp t) = 0 then some (s.goto t .lockCtr)
      else some (s.goto t (.lockWrite (s.rcuReaderGp t + 1)))
    else none
  | .rcuReadUnlock t, s =>
    if s.loc t = .idle ∧ 0 < s.sec.depth t then
      some { s.setGp t (s.rcuReaderGp t - 1) with sec := s.sec.leave t }
    else none
  | .report t .quiescent, s =>
    if s.loc t = .idle then
      if nest (s.rcuReaderGp t) = 0 then some (s.goto t (.report .quiescent))
      else some (s.goto t (.reportWrite .quiescent (s.rcuReaderGp t)))
    else none
  | .report t r, s =>
    if s.loc t = .idle ∧ s.sec.depth t = 0 then some (s.goto t (.report r)) else none
  | .synchronizeRcu t, s =>
    if s.loc t = .idle then some ({ s with sec := s.sec.observe t }.goto t .syncLock) else none
  | .step t, s => stepThread t s

/-- `rcu_init`. -/
structure Init (s : St n) : Prop where
  ctr : s.rcuGpCtr = 0
  gp : ∀ t, s.rcuReaderGp t = 0
  word : ∀ t, s.rcuReaderQsGp t = 0
  lock : s.rcuGpLock = none
  loc : ∀ t, s.loc t = .idle
  online : ∀ t, s.online t = false
  sec : s.sec = ⟨fun _ => 0, fun _ _ => false⟩

def sys (n : ℕ) : Sys (St n) (Act n) := ⟨Init, next⟩

/-- When `synchronize_rcu` of a thread returns, every section that ran when the
call began has been left. -/
def GracePeriod (s : St n) : Prop := ∀ t, s.loc t = .syncReturn → s.sec.Waited t

/-! ### The invariant -/

theorem nest_eq (x : ℕ) : nest x = x % 128 := Nat.and_two_pow_sub_one_eq_mod x 7

/-- In `synchronize_rcu`, with `rcu_gp_lock`. -/
def Loc.holding : Loc n → Bool
  | .syncRead | .syncWrite _ | .scanNest _ | .scanGp _ | .scanCtr _ _ | .syncUnlock => true
  | _ => false

/-- Both words of `u` show an earlier grace period than that of the counter. -/
def Old (s : St n) (u : Fin n) : Prop :=
  s.rcuReaderQsGp u / 128 < s.rcuGpCtr / 128 ∧ s.rcuReaderGp u / 128 < s.rcuGpCtr / 128

/-- The readers that the call of `t` waits for are old, and the scan is not past them. -/
def Waiting (s : St n) (t : Fin n) (i : ℕ) : Prop :=
  ∀ u, s.sec.pre t u = true → Old s u ∧ i ≤ u.val

/-- What holds of a thread at a place of the code. -/
def At (s : St n) (t : Fin n) : Loc n → Prop
  | .lockCtr => s.sec.depth t = 0 ∧ s.online t = true
  | .lockWrite x => s.online t = true ∧ s.sec.depth t < 127 ∧ x % 128 = s.sec.depth t + 1 ∧
      x / 128 ≤ s.rcuGpCtr / 128 ∧ (0 < s.sec.depth t → x / 128 = s.rcuReaderGp t / 128)
  | .report _ => s.sec.depth t = 0
  | .reportWrite r x => x / 128 ≤ s.rcuGpCtr / 128 ∧ (r ≠ .offline → x % 128 ≠ 0) ∧
      (0 < s.sec.depth t → r = .quiescent ∧ x = s.rcuReaderGp t)
  | .syncWrite v => v = s.rcuGpCtr
  | .scanNest u | .scanGp u => Waiting s t u
  | .scanCtr u x => Waiting s t u ∧ (s.sec.pre t u = true → x / 128 < s.rcuGpCtr / 128)
  | .syncUnlock | .syncReturn => s.sec.Waited t
  | _ => True

/-- What holds of the words of a thread. -/
structure Words (s : St n) (u : Fin n) : Prop where
  nest : s.rcuReaderGp u % 128 = s.sec.depth u
  gp : s.rcuReaderGp u / 128 ≤ s.rcuGpCtr / 128
  word : s.rcuReaderQsGp u / 128 ≤ s.rcuGpCtr / 128
  odd : s.online u = true → s.rcuReaderQsGp u % 128 ≠ 0
  reader : 0 < s.sec.depth u → s.online u = true

structure Inv (s : St n) : Prop where
  ok : s.sec.Ok
  ctr : s.rcuGpCtr % 128 = 0
  words : ∀ u, Words s u
  lock : LockedBy Loc.holding s.rcuGpLock s.loc
  loc : ∀ t, At s t (s.loc t)

variable {s s' : St n} {t : Fin n} {l : Loc n} {i : ℕ}

/-- A thread is not disturbed as long as the readers it waits for stay old, and
the counter does not change while it has the lock. -/
theorem At.frame (h : At s t l) (hd : s'.sec.depth t = s.sec.depth t)
    (hg : s'.rcuReaderGp t = s.rcuReaderGp t) (hon : s'.online t = s.online t)
    (hle : s.rcuGpCtr ≤ s'.rcuGpCtr) (hc : l.holding = true → s'.rcuGpCtr = s.rcuGpCtr)
    (hp : ∀ u, s'.sec.pre t u = true →
      s.sec.pre t u = true ∧ (s'.rcuGpCtr = s.rcuGpCtr → Old s u → Old s' u)) : At s' t l := by
  have hdiv : s.rcuGpCtr / 128 ≤ s'.rcuGpCtr / 128 := Nat.div_le_div_right hle
  have hwait : ∀ {i}, s'.rcuGpCtr = s.rcuGpCtr → Waiting s t i → Waiting s' t i := by
    intro i hc hw u hu
    obtain ⟨hu, hold⟩ := hp u hu
    exact ⟨hold hc (hw u hu).1, (hw u hu).2⟩
  cases l with
  | idle | syncLock | syncRead => trivial
  | lockCtr => exact ⟨hd.trans h.1, hon.trans h.2⟩
  | lockWrite x =>
    obtain ⟨h1, h2, h3, h4, h5⟩ := h
    exact ⟨hon.trans h1, by omega, by omega, by omega, by rw [hd, hg]; exact h5⟩
  | report r => exact hd.trans h
  | reportWrite r x =>
    obtain ⟨h1, h2, h3⟩ := h
    exact ⟨by omega, h2, by rw [hd, hg]; exact h3⟩
  | syncWrite v => exact Eq.trans h (hc rfl).symm
  | scanNest u | scanGp u => exact hwait (hc rfl) h
  | scanCtr u x => exact ⟨hwait (hc rfl) h.1, fun hu => by rw [hc rfl]; exact h.2 (hp u hu).1⟩
  | syncUnlock | syncReturn => exact Sections.Waited.mono h fun u hu => (hp u hu).1

/-- A thread goes on to `l`; it may change its own words, and the counter if it has the lock. -/
theorem Inv.move (h : Inv s) (hloc : s'.loc = Function.update s.loc t l) (hok : s'.sec.Ok)
    (hd : ∀ v, v ≠ t → s'.sec.depth v = s.sec.depth v ∧ s'.rcuReaderGp v = s.rcuReaderGp v ∧
      s'.rcuReaderQsGp v = s.rcuReaderQsGp v ∧ s'.online v = s.online v)
    (hp : ∀ v u, v ≠ t → s'.sec.pre v u = true → s.sec.pre v u = true)
    (hold : ∀ v, v ≠ t → s'.sec.pre v t = true → s'.rcuGpCtr = s.rcuGpCtr → Old s t → Old s' t)
    (hle : s.rcuGpCtr ≤ s'.rcuGpCtr) (hc : s'.rcuGpCtr = s.rcuGpCtr ∨ (s.loc t).holding = true)
    (hctr : s'.rcuGpCtr % 128 = 0) (hw : Words s' t)
    (hlock : LockedBy Loc.holding s'.rcuGpLock s'.loc) (hl : At s' t l) : Inv s' where
  ok := hok
  ctr := hctr
  words u := by
    by_cases hu : u = t
    · rwa [hu]
    · obtain ⟨h1, h2, h3, h4⟩ := hd u hu
      have W := h.words u
      have hdiv : s.rcuGpCtr / 128 ≤ s'.rcuGpCtr / 128 := Nat.div_le_div_right hle
      exact ⟨by rw [h1, h2]; exact W.nest, by rw [h2]; exact le_trans W.gp hdiv,
        by rw [h3]; exact le_trans W.word hdiv, by rw [h3, h4]; exact W.odd, by rw [h1, h4]; exact W.reader⟩
  lock := hlock
  loc := by
    refine forall_update (P := At s') hloc hl fun v hv => (h.loc v).frame (hd v hv).1 (hd v hv).2.1
      (hd v hv).2.2.2 hle (fun hh => hc.resolve_right fun ht => hv (h.lock.eq ht hh))
      fun u hu => ⟨hp v u hv hu, fun hceq ho => ?_⟩
    by_cases hut : u = t
    · rw [hut] at hu ho ⊢
      exact hold v hv hu hceq ho
    · unfold Old
      rw [(hd u hut).2.1, (hd u hut).2.2.1, hceq]
      exact ho

/-- A thread goes on to `l`, and no word or section changes. -/
theorem Inv.walk (h : Inv s) (hl : At s t l) (hh : l.holding = (s.loc t).holding) :
    Inv (s.goto t l) :=
  h.move rfl h.ok (fun _ _ => ⟨rfl, rfl, rfl, rfl⟩) (fun _ _ _ hu => hu) (fun _ _ _ _ ho => ho) le_rfl
    (.inl rfl) h.ctr
    ⟨(h.words t).nest, (h.words t).gp, (h.words t).word, (h.words t).odd, (h.words t).reader⟩
    (h.lock.stay rfl hh) (hl.frame rfl rfl rfl le_rfl (fun _ => rfl) fun _ hu => ⟨hu, fun _ ho => ho⟩)

/-- The scan goes on. -/
theorem at_scanFrom (h : Waiting s t i) : At s t (scanFrom i) := by
  refine scan_rec (P := At s t) (fun v hv => by rw [← hv] at h; exact h) fun hn => ?_
  exact Sections.waited_of_le fun u hu => hn.trans (h u hu).2

theorem holding_scanFrom : (scanFrom i : Loc n).holding = true :=
  scan_rec (P := fun l : Loc n => l.holding = true) (fun _ _ => rfl) fun _ => rfl

/-- The scan goes past a thread that is not waited for. -/
theorem Waiting.pass {u : Fin n} (h : Waiting s t u) (hu : s.sec.pre t u = false) :
    Waiting s t (u + 1) := by
  intro v hv
  obtain ⟨hold, hle⟩ := h v hv
  exact ⟨hold, Sections.succ_le_of_pre hu hv hle⟩

/-- `inv_step` for the steps of a reader. -/
theorem inv_reader (h : Inv s) (hn : stepThread t s = some s')
    (hl : s.loc t = .lockCtr ∨ (∃ x, s.loc t = .lockWrite x) ∨ (∃ r, s.loc t = .report r) ∨
      ∃ r x, s.loc t = .reportWrite r x) : Inv s' := by
  have ha := h.loc t
  have W := h.words t
  have hctr := h.ctr
  unfold stepThread at hn
  rcases hl with hl | ⟨x, hl⟩ | ⟨r, hl⟩ | ⟨r, x, hl⟩ <;> rw [hl] at hn ha <;> dsimp only at hn
  · cases hn
    obtain ⟨hd, hon⟩ := ha
    exact h.walk ⟨hon, by omega, by omega, by omega, fun hp => by omega⟩ (by rw [hl]; rfl)
  · cases hn
    obtain ⟨hon, hlt, hmod, hdiv, hsame⟩ := ha
    have hself : Function.update s.rcuReaderGp t x t = x := Function.update_self ..
    refine h.move rfl (h.ok.enter t)
      (fun v hv => ⟨Sections.enter_depth_ne hv, Function.update_of_ne hv .., rfl, rfl⟩)
      (fun _ _ _ hu => hu) (fun v _ hv _ ho => ⟨ho.1, ?_⟩) le_rfl (.inl rfl) hctr
      ⟨?_, ?_, W.word, W.odd, fun _ => hon⟩ (h.lock.stay rfl (by rw [hl]; rfl)) trivial
    · -- a deeper level keeps the number of the section
      show Function.update s.rcuReaderGp t x t / 128 < _
      rw [hself, hsame (h.ok v t hv)]
      exact ho.2
    · show Function.update s.rcuReaderGp t x t % 128 = (s.sec.enter t).depth t
      rw [hself, Sections.enter_depth, hmod]
    · show Function.update s.rcuReaderGp t x t / 128 ≤ _
      rwa [hself]
  · cases hn
    have ha : s.sec.depth t = 0 := ha
    refine h.walk ⟨?_, fun hr => ?_, fun hp => by omega⟩ (by rw [hl]; rfl)
    · cases r <;> simp only [Report.word] <;> omega
    · cases r with
      | offline => exact absurd rfl hr
      | quiescent | online => show (s.rcuGpCtr + 1) % 128 ≠ 0; omega
  · cases hn
    obtain ⟨hdiv, hmod, hin⟩ := ha
    have hself : Function.update s.rcuReaderQsGp t x t = x := Function.update_self ..
    have hon : Function.update s.online t (r.online? (s.online t)) t = r.online? (s.online t) :=
      Function.update_self ..
    refine h.move rfl h.ok (fun v hv => ⟨rfl, rfl, Function.update_of_ne hv .., Function.update_of_ne hv ..⟩)
      (fun _ _ _ hu => hu) (fun v _ hv _ ho => ⟨?_, ho.2⟩) le_rfl (.inl rfl) hctr
      ⟨W.nest, W.gp, ?_, ?_, fun hp => ?_⟩ (h.lock.stay rfl (by rw [hl]; rfl)) trivial
    · -- a report in the section shows the number of the section
      show Function.update s.rcuReaderQsGp t x t / 128 < _
      rw [hself, (hin (h.ok v t hv)).2]
      exact ho.2
    · show Function.update s.rcuReaderQsGp t x t / 128 ≤ _
      rwa [hself]
    · show Function.update s.online t _ t = true → Function.update s.rcuReaderQsGp t x t % 128 ≠ 0
      rw [hself, hon]
      intro ho
      refine hmod fun hr => ?_
      rw [hr] at ho
      cases ho
    · show Function.update s.online t _ t = true
      rw [hon, (hin hp).1]
      exact W.reader hp

/-- `inv_step` for the steps of `synchronize_rcu`. -/
theorem inv_updater (h : Inv s) (hn : stepThread t s = some s')
    (hl : s.loc t = .syncLock ∨ s.loc t = .syncReturn ∨ (s.loc t).holding = true) : Inv s' := by
  have ha := h.loc t
  have W := h.words t
  have hctr := h.ctr
  unfold stepThread at hn
  cases hloc : s.loc t with
  | idle | lockCtr | lockWrite | report | reportWrite => simp [hloc, Loc.holding] at hl
  | syncLock =>
    rw [hloc] at hn
    dsimp only at hn
    split at hn <;> rename_i hfree <;> cases hn
    have hlock := h.lock
    rw [hfree] at hlock
    exact h.move (l := .syncRead) rfl h.ok (fun _ _ => ⟨rfl, rfl, rfl, rfl⟩) (fun _ _ _ hu => hu)
      (fun _ _ _ _ ho => ho) le_rfl (.inl rfl) hctr ⟨W.nest, W.gp, W.word, W.odd, W.reader⟩
      (hlock.take rfl rfl) trivial
  | syncRead =>
    rw [hloc] at hn
    cases hn
    exact h.walk rfl (by rw [hloc]; rfl)
  | syncWrite v =>
    rw [hloc] at hn ha
    cases hn
    obtain rfl : v = s.rcuGpCtr := ha
    have hb : rcuGpCtrBottomBit = 128 := rfl
    have hdiv : (s.rcuGpCtr + rcuGpCtrBottomBit) / 128 = s.rcuGpCtr / 128 + 1 := by omega
    have hle : ∀ {x}, x / 128 ≤ s.rcuGpCtr / 128 → x / 128 < (s.rcuGpCtr + rcuGpCtrBottomBit) / 128 :=
      fun hx => by omega
    refine h.move rfl h.ok (fun _ _ => ⟨rfl, rfl, rfl, rfl⟩) (fun _ _ _ hu => hu)
      (fun _ _ _ he _ => ?_) (Nat.le_add_right _ _) (.inr (by rw [hloc]; rfl))
      (by show (s.rcuGpCtr + rcuGpCtrBottomBit) % 128 = 0; omega)
      ⟨W.nest, (hle W.gp).le, (hle W.word).le, W.odd, W.reader⟩
      (h.lock.stay rfl (by rw [hloc]; exact holding_scanFrom)) (at_scanFrom fun u _ => ⟨?_, Nat.zero_le _⟩)
    · change s.rcuGpCtr + rcuGpCtrBottomBit = s.rcuGpCtr at he
      omega
    · exact ⟨hle (h.words u).word, hle (h.words u).gp⟩
  | scanNest u =>
    rw [hloc] at hn ha
    dsimp only at hn
    split at hn <;> rename_i hb <;> cases hn
    · exact h.walk ha (by rw [hloc]; rfl)
    · refine h.walk (at_scanFrom (Waiting.pass ha ?_)) (by rw [hloc]; exact holding_scanFrom)
      by_contra hu
      have hd := h.ok t u (by simpa using hu)
      have := (h.words u).odd ((h.words u).reader hd)
      rw [nest_eq] at hb
      exact hb this
  | scanGp u =>
    rw [hloc] at hn ha
    cases hn
    exact h.walk ⟨ha, fun hu => (ha u hu).1.1⟩ (by rw [hloc]; rfl)
  | scanCtr u x =>
    rw [hloc] at hn ha
    dsimp only at hn
    obtain ⟨hwait, hx⟩ := ha
    split at hn <;> rename_i hlt <;> cases hn
    · exact h.walk hwait (by rw [hloc]; rfl)
    · refine h.walk (at_scanFrom (hwait.pass ?_)) (by rw [hloc]; exact holding_scanFrom)
      by_contra hu
      have := hx (by simpa using hu)
      omega
  | syncUnlock =>
    rw [hloc] at hn ha
    cases hn
    exact h.move (l := .syncReturn) rfl h.ok (fun _ _ => ⟨rfl, rfl, rfl, rfl⟩) (fun _ _ _ hu => hu)
      (fun _ _ _ _ ho => ho) le_rfl (.inl rfl) hctr ⟨W.nest, W.gp, W.word, W.odd, W.reader⟩
      (h.lock.drop rfl (by rw [hloc]; rfl) rfl) ha
  | syncReturn =>
    rw [hloc] at hn
    cases hn
    exact h.walk trivial (by rw [hloc]; rfl)

/-- **The step lemma.** -/
theorem inv_step {a : Act n} (h : Inv s) (hn : next a s = some s') : Inv s' := by
  have hmask : rcuGpCtrNestMask = 127 := rfl
  cases a with
  | rcuReadLock t =>
    have W := h.words t
    have hnest := W.nest
    have hgp := W.gp
    simp only [next] at hn
    split at hn <;> rename_i hc
    · obtain ⟨hidle, hon, hlt⟩ := hc
      rw [nest_eq] at hn
      split at hn <;> rename_i h0 <;> cases hn
      · exact h.walk ⟨by omega, hon⟩ (by rw [hidle]; rfl)
      · exact h.walk ⟨hon, by omega, by omega, by omega, fun _ => by omega⟩ (by rw [hidle]; rfl)
    · cases hn
  | rcuReadUnlock t =>
    have W := h.words t
    have hnest := W.nest
    have hgp := W.gp
    simp only [next] at hn
    split at hn <;> rename_i hc <;> cases hn
    have hself : Function.update s.rcuReaderGp t (s.rcuReaderGp t - 1) t = s.rcuReaderGp t - 1 :=
      Function.update_self ..
    have hdiv : (s.rcuReaderGp t - 1) / 128 = s.rcuReaderGp t / 128 := by omega
    refine h.move (t := t) (l := .idle) (by rw [← hc.1]; exact (Function.update_eq_self ..).symm)
      (h.ok.leave t)
      (fun v hv => ⟨Sections.leave_depth_ne hv, Function.update_of_ne hv .., rfl, rfl⟩)
      (fun _ _ _ hu => (Sections.pre_of_leave hu).1) (fun v _ _ _ ho => ⟨ho.1, ?_⟩) le_rfl (.inl rfl) h.ctr
      ⟨?_, ?_, W.word, W.odd, fun _ => W.reader hc.2⟩ h.lock trivial
    · show Function.update s.rcuReaderGp t _ t / 128 < _
      rw [hself, hdiv]
      exact ho.2
    · show Function.update s.rcuReaderGp t _ t % 128 = (s.sec.leave t).depth t
      rw [hself, Sections.leave_depth]
      omega
    · show Function.update s.rcuReaderGp t _ t / 128 ≤ _
      rw [hself, hdiv]
      exact W.gp
  | report t r =>
    have W := h.words t
    have hnest := W.nest
    cases r with
    | quiescent =>
      simp only [next] at hn
      split at hn <;> rename_i hc
      · rw [nest_eq] at hn
        split at hn <;> rename_i h0 <;> cases hn
        · exact h.walk (show s.sec.depth t = 0 by omega) (by rw [hc]; rfl)
        · exact h.walk ⟨W.gp, fun _ => h0, fun _ => ⟨rfl, rfl⟩⟩ (by rw [hc]; rfl)
      · cases hn
    | offline | online =>
      simp only [next] at hn
      split at hn <;> rename_i hc <;> cases hn
      exact h.walk hc.2 (by rw [hc.1]; rfl)
  | synchronizeRcu t =>
    have W := h.words t
    simp only [next] at hn
    split at hn <;> rename_i hc <;> cases hn
    exact h.move (l := .syncLock) rfl (h.ok.observe t) (fun _ _ => ⟨rfl, rfl, rfl, rfl⟩)
      (fun v u hv hu => by rwa [← Sections.observe_pre_ne hv]) (fun _ _ _ _ ho => ho) le_rfl (.inl rfl)
      h.ctr ⟨W.nest, W.gp, W.word, W.odd, W.reader⟩ (h.lock.stay rfl (by rw [hc]; rfl)) trivial
  | step t =>
    have hn' : stepThread t s = some s' := hn
    cases hloc : s.loc t with
    | idle =>
      unfold stepThread at hn'
      rw [hloc] at hn'
      cases hn'
    | lockCtr => exact inv_reader h hn (.inl hloc)
    | lockWrite x => exact inv_reader h hn (.inr (.inl ⟨x, hloc⟩))
    | report r => exact inv_reader h hn (.inr (.inr (.inl ⟨r, hloc⟩)))
    | reportWrite r x => exact inv_reader h hn (.inr (.inr (.inr ⟨r, x, hloc⟩)))
    | syncLock => exact inv_updater h hn (.inl hloc)
    | syncReturn => exact inv_updater h hn (.inr (.inl hloc))
    | _ => exact inv_updater h hn (.inr (.inr (by rw [hloc]; rfl)))

theorem inv_init (h : Init s) : Inv s where
  ok t u hp := by simp [h.sec] at hp
  ctr := by rw [h.ctr]
  words u := ⟨by simp [h.gp, h.sec], by simp [h.gp], by simp [h.word], fun hu => by simp [h.online] at hu,
    fun hu => by simp [h.sec] at hu⟩
  lock t := by simp [h.lock, h.loc t, Loc.holding]
  loc t := by
    rw [h.loc t]
    trivial

theorem grace_period_of_reach (h : (sys n).Reach Sys.always s) : GracePeriod s := by
  intro t ht
  have hi := (h.inv (fun _ => inv_init) fun _ _ _ hi _ hn => inv_step hi hn).loc t
  rwa [ht] at hi

/-- **The grace-period guarantee** of `rcu_qs` and of `rcu_nest_qs`. -/
theorem qs_grace_period (n : ℕ) : (∀ s, (Qs.sys n).Reach Sys.always s → Qs.GracePeriod s) ∧
    ∀ s, (sys n).Reach Sys.always s → GracePeriod s :=
  ⟨fun _ => Qs.grace_period_of_reach, fun _ => grace_period_of_reach⟩

/-! ### A run of each -/

/-- `rcu_init`, two threads. -/
def qsStart : Qs.St 2 where
  rcuGpCtr := 0
  rcuReaderQsGp _ := 0
  rcuGpLock := none
  loc _ := .idle
  online _ := false
  sec := ⟨fun _ => 0, fun _ _ => false⟩

def start : St 2 where
  rcuGpCtr := 0
  rcuReaderGp _ := 0
  rcuReaderQsGp _ := 0
  rcuGpLock := none
  loc _ := .idle
  online _ := false
  sec := ⟨fun _ => 0, fun _ _ => false⟩

theorem qsStart_init : Qs.Init qsStart := ⟨rfl, fun _ => rfl, rfl, fun _ => rfl, fun _ => rfl, rfl⟩

theorem start_init : Init start :=
  ⟨rfl, fun _ => rfl, fun _ => rfl, rfl, fun _ => rfl, fun _ => rfl, rfl⟩

/-- Thread 1 goes round its loop once while thread 0 is in a section, and
returns when thread 0 has reported. -/
def qsWaits : List (Qs.Act 2) :=
  .report 0 .online :: List.replicate 2 (.step 0) ++ [.rcuReadLock 0, .synchronizeRcu 1] ++
    List.replicate 6 (.step 1) ++ [.rcuReadUnlock 0, .report 0 .quiescent] ++
    List.replicate 2 (.step 0) ++ List.replicate 5 (.step 1)

/-- In the same way, with a section in a section, and a report in both that does
not count. -/
def waits : List (Act 2) :=
  .report 0 .online :: List.replicate 2 (.step 0) ++ .rcuReadLock 0 :: List.replicate 2 (.step 0) ++
    [.synchronizeRcu 1] ++ List.replicate 3 (.step 1) ++ [.rcuReadLock 0, .step 0] ++
    [.report 0 .quiescent, .step 0] ++ List.replicate 3 (.step 1) ++
    [.rcuReadUnlock 0, .rcuReadUnlock 0, .report 0 .quiescent] ++ List.replicate 2 (.step 0) ++
    List.replicate 5 (.step 1)

theorem qs_grace_period_waits :
    (∃ s, (Qs.sys 2).Reach Sys.always s ∧ s.loc 1 = .syncReturn ∧ Qs.GracePeriod s) ∧
      ∃ s, (sys 2).Reach Sys.always s ∧ s.loc 1 = .syncReturn ∧ GracePeriod s := by
  constructor
  · have hrun : ((Qs.sys 2).run Sys.always qsWaits qsStart).map (fun s => s.loc 1) =
        some .syncReturn := by
      decide
    obtain ⟨s, hs, hd⟩ := Option.map_eq_some_iff.mp hrun
    have hr := Sys.run_reach (.init qsStart_init) hs
    exact ⟨s, hr, hd, (qs_grace_period 2).1 s hr⟩
  · have hrun : ((sys 2).run Sys.always waits start).map (fun s => s.loc 1) = some .syncReturn := by
      decide
    obtain ⟨s, hs, hd⟩ := Option.map_eq_some_iff.mp hrun
    have hr := Sys.run_reach (.init start_init) hs
    exact ⟨s, hr, hd, (qs_grace_period 2).2 s hr⟩

end NestQs
end Rcu
end Perfbook
