/-
# The invariant of `rcu_nest` when the wait loop does not pass a stale reader

`counter w b j` is the word of a reader that sampled grace period `b` and is
nested `j` deep. As long as `b` lies less than half the range behind the
current number `g`, the difference of the words tells so (`ulongCmpLt_counter`):
this is the comparison `ULONG_CMP_LT`, which `synchronize_rcu` replaces by
`< 0`. `GpOk` says that the wait loop never goes past a reader for which it
holds, and that no reader sleeps through half the range of the counter.

`Inv` records when each thread entered its section (`entered`) and what the
number was when each `synchronize_rcu` began (`begun`): while a reader is in
its section at most one grace period begins after it, and that one does not
get past it.
-/
import Perfbook.Rcu.Nest
import Mathlib.Tactic.Ring

namespace Perfbook
namespace Rcu
namespace Nest

open Conc

/-! ### The arithmetic of the words -/

section Words

variable {w b g j : ℕ}

/-- Grace period `b`, nested `j` deep. -/
def counter (w b j : ℕ) : BitVec w := BitVec.ofNat w (128 * b + j)

theorem counter_succ (w b j : ℕ) : counter w b j + 1 = counter w b (j + 1) := by
  rw [counter, counter, show (1 : BitVec w) = BitVec.ofNat w 1 from rfl, ← BitVec.ofNat_add]
  rfl

theorem counter_pred (w b j : ℕ) : counter w b (j + 1) - 1 = counter w b j := by
  rw [← counter_succ]
  ring

theorem counter_next (w b : ℕ) : counter w b 0 + rcuGpCtrBottomBit w = counter w (b + 1) 0 := by
  rw [counter, counter, rcuGpCtrBottomBit, ← BitVec.ofNat_add]
  rfl

theorem nest_counter (hw : 32 ≤ w) (hj : j < 128) : nest (counter w b j) = BitVec.ofNat w j := by
  apply BitVec.eq_of_toNat_eq
  obtain ⟨k, rfl⟩ := Nat.exists_eq_add_of_le (show 7 ≤ w by omega)
  have hp : 2 ^ (7 + k) = 128 * 2 ^ k := by
    rw [pow_add]
    rfl
  have hk : 0 < 2 ^ k := Nat.two_pow_pos k
  have h127 : (1 <<< 7 - 1) % 2 ^ (7 + k) = 2 ^ 7 - 1 := Nat.mod_eq_of_lt (by omega)
  have hj' : j % 2 ^ (7 + k) = j := Nat.mod_eq_of_lt (by omega)
  rw [nest, rcuGpCtrNestMask, counter, BitVec.toNat_and, BitVec.toNat_ofNat, BitVec.toNat_ofNat,
    BitVec.toNat_ofNat, h127, hj', Nat.and_two_pow_sub_one_eq_mod, hp, show 2 ^ 7 = 128 from rfl,
    Nat.mod_mul_right_mod]
  omega

theorem ofNat_inj_small (hw : 32 ≤ w) {i : ℕ} (hi : i < 128) (hj : j < 128)
    (h : BitVec.ofNat w i = BitVec.ofNat w j) : i = j := by
  have hp : 2 ^ 32 ≤ 2 ^ w := Nat.pow_le_pow_right (by omega) hw
  have h := congrArg BitVec.toNat h
  rwa [BitVec.toNat_ofNat, BitVec.toNat_ofNat, Nat.mod_eq_of_lt (by omega),
    Nat.mod_eq_of_lt (by omega)] at h

theorem nest_counter_eq (hw : 32 ≤ w) (hj : j < 128) {i : ℕ} (hi : i < 128) :
    nest (counter w b j) = BitVec.ofNat w i ↔ j = i := by
  rw [nest_counter hw hj]
  exact ⟨ofNat_inj_small hw hj hi, fun h => h ▸ rfl⟩

/-- The difference to a number that is `d` ahead. -/
theorem sub_ahead {x d : ℕ} (hd : 0 < d) (hw : d < 2 ^ w) :
    (BitVec.ofNat w x - BitVec.ofNat w (x + d)).toNat = 2 ^ w - d := by
  have h : BitVec.ofNat w x - BitVec.ofNat w (x + d) = - BitVec.ofNat w d := by
    rw [BitVec.ofNat_add]
    ring
  rw [h, BitVec.toNat_neg, BitVec.toNat_ofNat, Nat.mod_eq_of_lt hw, Nat.mod_eq_of_lt (by omega)]

theorem half_range (hw : 32 ≤ w) : 2 ^ 31 ≤ 2 ^ (w - 1) ∧ 2 ^ w = 2 * 2 ^ (w - 1) ∧
    (2 ^ w - 1) / 2 = 2 ^ (w - 1) - 1 := by
  have h1 : 2 ^ 31 ≤ 2 ^ (w - 1) := Nat.pow_le_pow_right (by omega) (by omega)
  have h2 : 2 ^ w = 2 * 2 ^ (w - 1) := by
    rw [← pow_succ', Nat.sub_add_cancel (by omega)]
  omega

/-- The comparison of the wait loop is never true. -/
theorem difference_not_neg (x y : BitVec w) : ¬ x - y < 0 :=
  fun h => Nat.not_lt_zero _ (BitVec.lt_def.mp h)

/-- A reader a few grace periods behind is seen to be behind. -/
theorem ulongCmpLt_counter (hw : 32 ≤ w) (hj : j < 128) (hb : b < g) (hg : g ≤ b + 255) :
    ulongCmpLt (counter w b j) (counter w g 0) := by
  obtain ⟨h1, h2, h3⟩ := half_range hw
  have hd : 128 * g + 0 = 128 * b + j + (128 * (g - b) - j) := by omega
  rw [ulongCmpLt, counter, counter, hd, sub_ahead (by omega) (by omega)]
  omega

/-- The overflow check of `rcu_read_lock`: a reader less than half the range
behind that is not sent back is at most 254 grace periods behind. -/
theorem le_of_not_ulongCmpGe (hw : 32 ≤ w) (hg : 128 * (g - b) < 2 ^ (w - 1))
    (h : ¬ ulongCmpGe (counter w g 0) (counter w b 1 + maxGpAdvDistance w)) : g ≤ b + 254 := by
  obtain ⟨h1, h2, h3⟩ := half_range hw
  by_contra hc
  refine h ?_
  have hd : 128 * g + 0 = 128 * b + 1 + 32512 + (128 * (g - b) - 32513) := by omega
  have hs : counter w g 0 - (counter w b 1 + maxGpAdvDistance w) =
      BitVec.ofNat w (128 * (g - b) - 32513) := by
    have hm : maxGpAdvDistance w = BitVec.ofNat w 32512 := rfl
    rw [counter, counter, hm, hd, ← BitVec.ofNat_add, BitVec.ofNat_add (128 * b + 1 + 32512)]
    ring
  rw [ulongCmpGe, hs, BitVec.toNat_ofNat, Nat.mod_eq_of_lt (by omega)]
  omega

end Words

/-! ### The condition and the invariant -/

variable {w n : ℕ}

/-- The condition on the steps: when the wait loop reads the word of a thread
that is nested, the word is not behind `rcu_gp_ctr`; and when a reader reads
the counter for the second time, it has advanced by less than half the range
of `unsigned long` since the first. -/
def GpOk : Act n → St w n → Prop
  | .step t, s =>
    match s.loc t with
    | .scanGp u => nest (s.rcuReaderGp u) = 0 ∨ ¬ ulongCmpLt (s.rcuReaderGp u) s.rcuGpCtr
    | .lockCheck _ => 128 * (s.gps - s.sampled t) < 2 ^ (w - 1)
    | _ => True
  | _, _ => True

/-- The word of `t` shows depth `j`, and the number `t` sampled if `0 < j`. -/
def Pub (s : St w n) (t : Fin n) (j : ℕ) : Prop :=
  ∃ b, s.rcuReaderGp t = counter w b j ∧ (0 < j → b = s.sampled t)

/-- What is true of the word of `t` and of its locals at a place of the code. -/
def LocInv (s : St w n) (t : Fin n) : Loc w n → Prop
  | .lockRead => s.depth t < 127 ∧ Pub s t (s.depth t)
  | .lockCtr => s.depth t = 0 ∧ Pub s t (s.depth t)
  | .lockWrite tmp =>
    s.depth t < 127 ∧ Pub s t (s.depth t) ∧ tmp = counter w (s.sampled t) (s.depth t + 1)
  | .lockCheck tmp => s.depth t = 0 ∧ Pub s t 1 ∧ tmp = counter w (s.sampled t) 1
  | .retryRead => s.depth t = 0 ∧ Pub s t 1
  | .retryWrite v => s.depth t = 0 ∧ Pub s t 1 ∧ v = s.rcuReaderGp t
  | .unlockRead => 0 < s.depth t ∧ Pub s t (s.depth t)
  | .unlockWrite v => 0 < s.depth t ∧ Pub s t (s.depth t) ∧ v = s.rcuReaderGp t
  | .syncWrite v => Pub s t (s.depth t) ∧ v = s.rcuGpCtr
  | _ => Pub s t (s.depth t)

namespace Loc

/-- In `synchronize_rcu`. -/
def inCall : Loc w n → Bool
  | syncLock | syncRead | syncWrite _ | scanNest _ | scanGp _ | scanCtr _ _ | syncUnlock
  | syncReturn => true
  | _ => false

/-- In `synchronize_rcu`, with `rcu_gp_lock`. -/
def holding : Loc w n → Bool
  | syncRead | syncWrite _ | scanNest _ | scanGp _ | scanCtr _ _ | syncUnlock => true
  | _ => false

/-- In `synchronize_rcu`, after the counter was advanced. -/
def advanced : Loc w n → Bool
  | scanNest _ | scanGp _ | scanCtr _ _ | syncUnlock | syncReturn => true
  | _ => false

/-- The scan has thread `u` still before it. -/
def ahead (u : Fin n) : Loc w n → Prop
  | scanNest v | scanGp v => v ≤ u
  | scanCtr v _ => v < u
  | _ => False

/-- The scan is past thread `u`. -/
def past (u : Fin n) : Loc w n → Prop
  | scanNest v | scanGp v => u < v
  | scanCtr v _ => u ≤ v
  | syncUnlock | syncReturn => True
  | _ => False

theorem ahead_holding {u : Fin n} : ∀ {l : Loc w n}, l.ahead u → l.holding = true
  | scanNest _, _ | scanGp _, _ | scanCtr _ _, _ => rfl

theorem past_advanced {u : Fin n} : ∀ {l : Loc w n}, l.past u → l.advanced = true
  | scanNest _, _ | scanGp _, _ | scanCtr _ _, _ | syncUnlock, _ | syncReturn, _ => rfl

theorem ahead_scanFrom {u : Fin n} {i : ℕ} : (scanFrom i : Loc w n).ahead u ↔ i ≤ u := by
  unfold scanFrom
  split
  · exact Iff.rfl
  · have := u.isLt
    exact ⟨False.elim, fun h => by omega⟩

theorem past_scanFrom {u : Fin n} {i : ℕ} : (scanFrom i : Loc w n).past u ↔ u < i := by
  unfold scanFrom
  split
  · exact Iff.rfl
  · have := u.isLt
    exact ⟨fun _ => by omega, fun _ => trivial⟩

@[simp] theorem scanFrom_inCall (i : ℕ) : (scanFrom i : Loc w n).inCall = true := by
  unfold scanFrom
  split <;> rfl

@[simp] theorem scanFrom_holding (i : ℕ) : (scanFrom i : Loc w n).holding = true := by
  unfold scanFrom
  split <;> rfl

@[simp] theorem scanFrom_advanced (i : ℕ) : (scanFrom i : Loc w n).advanced = true := by
  unfold scanFrom
  split <;> rfl

end Loc

/-- The invariant. `entered u` is the number of grace periods when the section
that `u` is in began, `begun t` when the call of `synchronize_rcu` of `t` began. -/
structure InvOf (entered begun : Fin n → ℕ) (s : St w n) : Prop where
  loc : ∀ t, LocInv s t (s.loc t)
  depth : ∀ t, s.depth t ≤ 127
  ctr : s.rcuGpCtr = counter w s.gps 0
  lock : ∀ t, (s.loc t).holding = true → s.rcuGpLock = some t
  sampled : ∀ t, s.sampled t ≤ s.gps
  reader : ∀ u, 0 < s.depth u → s.sampled u ≤ entered u ∧ entered u ≤ s.sampled u + 254 ∧
    (s.gps = entered u ∨ s.gps = entered u + 1 ∧ ∃ t, (s.loc t).ahead u)
  snap : ∀ t, (s.loc t).inCall = true → begun t ≤ s.gps ∧ ∀ u k, s.snap t u = some k →
    k ≤ s.exits u ∧ (s.exits u = k → 0 < s.depth u ∧ entered u ≤ begun t)
  begun : ∀ t, (s.loc t).advanced = true → begun t < s.gps
  past : ∀ t u k, (s.loc t).past u → s.snap t u = some k → k < s.exits u

def Inv (s : St w n) : Prop := ∃ entered begun, InvOf entered begun s

variable {entered begun : Fin n → ℕ} {s s' : St w n} {t u : Fin n}

theorem LocInv.frame {l : Loc w n} (h : LocInv s u l)
    (hw : s'.rcuReaderGp u = s.rcuReaderGp u) (hd : s'.depth u = s.depth u)
    (hs : s'.sampled u = s.sampled u) (hc : l.holding = true → s'.rcuGpCtr = s.rcuGpCtr) :
    LocInv s' u l := by
  have hp : ∀ {j}, Pub s u j → Pub s' u j := fun ⟨b, hb, hj⟩ => ⟨b, hw.trans hb, fun h => hs ▸ hj h⟩
  cases l with
  | lockRead | lockCtr | unlockRead | retryRead => exact ⟨hd ▸ h.1, by simpa only [hd] using hp h.2⟩
  | lockWrite tmp => exact ⟨hd ▸ h.1, by simpa only [hd] using hp h.2.1, by rw [hs, hd]; exact h.2.2⟩
  | lockCheck tmp => exact ⟨hd ▸ h.1, hp h.2.1, by rw [hs]; exact h.2.2⟩
  | retryWrite v => exact ⟨hd ▸ h.1, hp h.2.1, by rw [hw]; exact h.2.2⟩
  | unlockWrite v => exact ⟨hd ▸ h.1, by simpa only [hd] using hp h.2.1, by rw [hw]; exact h.2.2⟩
  | syncWrite v => exact ⟨by simpa only [hd] using hp h.1, h.2.trans (hc rfl).symm⟩
  | _ => simpa only [LocInv, hd] using hp h

/-- The places of all threads after `t` went on to `l`. -/
theorem loc_goto {l : Loc w n} {P : Fin n → Loc w n → Prop} (ht : P t l)
    (ho : ∀ u, u ≠ t → P u (s.loc u)) (u : Fin n) : P u ((s.goto t l).loc u) := by
  by_cases hu : u = t
  · subst hu
    simpa [St.goto] using ht
  · simpa [St.goto, hu] using ho u hu

/-- A thread goes on, and nothing else changes. -/
theorem InvOf.goto {l : Loc w n} (h : InvOf entered begun s) (hl : LocInv s t l)
    (hhold : l.holding = true → s.rcuGpLock = some t)
    (hahead : ∀ u, (s.loc t).ahead u → l.ahead u ∨ s.depth u = 0 ∨ s.gps = entered u)
    (hcall : l.inCall = true → (s.loc t).inCall = true)
    (hadv : l.advanced = true → (s.loc t).advanced = true)
    (hpast : ∀ u k, l.past u → s.snap t u = some k → (s.loc t).past u ∨ k < s.exits u) :
    InvOf entered begun (s.goto t l) :=
  { h with
    loc := loc_goto (P := LocInv (s.goto t l)) (hl.frame rfl rfl rfl fun _ => rfl)
      fun u _ => (h.loc u).frame rfl rfl rfl fun _ => rfl
    lock := loc_goto (P := fun u l => l.holding = true → s.rcuGpLock = some u) hhold
      fun u _ => h.lock u
    reader := fun u hu => by
      obtain ⟨h1, h2, h3⟩ := h.reader u hu
      refine ⟨h1, h2, h3.imp_right fun ⟨h4, v, hv⟩ => ⟨h4, ?_⟩⟩
      by_cases hvt : v = t
      · subst hvt
        rcases hahead u hv with h5 | h5 | h5
        · exact ⟨v, by simpa [St.goto] using h5⟩
        · exact absurd h5 (Nat.pos_iff_ne_zero.mp hu)
        · omega
      · exact ⟨v, by simpa [St.goto, hvt] using hv⟩
    snap := loc_goto (P := fun t l => l.inCall = true → _) (fun hi => h.snap t (hcall hi))
      fun u _ => h.snap u
    begun := loc_goto (P := fun t l => l.advanced = true → _) (fun hi => h.begun t (hadv hi))
      fun u _ => h.begun u
    past := loc_goto (P := fun t l => ∀ u k, l.past u → s.snap t u = some k → k < s.exits u)
      (fun u k hu hk => (hpast u k hu hk).elim (fun hp => h.past t u k hp hk) id)
      fun u _ => h.past u }

theorem LocInv.pub {l : Loc w n} (h : LocInv s u l) (hd : 0 < s.depth u) : Pub s u (s.depth u) := by
  cases l with
  | lockRead | lockCtr | unlockRead => exact h.2
  | lockWrite tmp | unlockWrite v => exact h.2.1
  | lockCheck tmp | retryRead | retryWrite v => exact absurd h.1 (Nat.pos_iff_ne_zero.mp hd)
  | syncWrite v => exact h.1
  | _ => exact h

theorem InvOf.nest_ne (h : InvOf entered begun s) (hw : 32 ≤ w) (hd : 0 < s.depth u) :
    nest (s.rcuReaderGp u) ≠ 0 := by
  obtain ⟨b, hb, -⟩ := (h.loc u).pub hd
  have := h.depth u
  rw [hb, Ne, show (0 : BitVec w) = BitVec.ofNat w 0 from rfl,
    nest_counter_eq hw (by omega) (by omega)]
  omega

/-- A thread that the wait loop may go past has not been in its section since
before the current grace period. -/
theorem InvOf.current (h : InvOf entered begun s) (hw : 32 ≤ w) (hd : 0 < s.depth u)
    (hok : nest (s.rcuReaderGp u) = 0 ∨ ¬ ulongCmpLt (s.rcuReaderGp u) s.rcuGpCtr) :
    s.gps = entered u := by
  obtain ⟨h1, h2, h3⟩ := h.reader u hd
  rcases h3 with h3 | ⟨h3, -⟩
  · exact h3
  · obtain ⟨b, hb, hs⟩ := (h.loc u).pub hd
    obtain rfl := hs hd
    have hlt := h.depth u
    refine absurd ?_ (hok.resolve_left (h.nest_ne hw hd))
    rw [hb, h.ctr]
    exact ulongCmpLt_counter hw (by omega) (by omega) (by omega)

/-! ### The steps of a reader -/

/-- A reader changes its own word, depth, sample or count of sections. -/
theorem InvOf.own {l : Loc w n} {e : ℕ} (h : InvOf entered begun s)
    (hctr : s'.rcuGpCtr = s.rcuGpCtr) (hlock : s'.rcuGpLock = s.rcuGpLock) (hloc : s'.loc = s.loc)
    (hsnap : s'.snap = s.snap) (hgps : s'.gps = s.gps)
    (hother : ∀ u, u ≠ t → s'.rcuReaderGp u = s.rcuReaderGp u ∧ s'.depth u = s.depth u ∧
      s'.sampled u = s.sampled u ∧ s'.exits u = s.exits u)
    (hl : LocInv s' t l) (hcall : l.inCall = false) (hcall' : (s.loc t).inCall = false)
    (hdepth : s'.depth t ≤ 127) (hsam : s'.sampled t ≤ s.gps)
    (hread : 0 < s'.depth t → s'.sampled t ≤ e ∧ e ≤ s'.sampled t + 254 ∧
      (s.gps = e ∨ s.gps = e + 1 ∧ ∃ v, (s.loc v).ahead t))
    (hexits : s.exits t ≤ s'.exits t)
    (hstay : s'.exits t = s.exits t → 0 < s.depth t → 0 < s'.depth t ∧ e = entered t) :
    InvOf (Function.update entered t e) begun (s'.goto t l) := by
  have hnc : ∀ {l : Loc w n}, l.inCall = false → l.holding = false ∧ l.advanced = false := by
    intro l hl
    cases l <;> simp_all [Loc.inCall, Loc.holding, Loc.advanced]
  have hna : ∀ {l : Loc w n} {u : Fin n}, l.inCall = false → ¬ l.ahead u := fun hl ha => by
    have := (hnc hl).1
    rw [Loc.ahead_holding ha] at this
    cases this
  have hnp : ∀ {l : Loc w n} {u : Fin n}, l.inCall = false → ¬ l.past u := fun hl ha => by
    have := (hnc hl).2
    rw [Loc.past_advanced ha] at this
    cases this
  -- who is ahead of whom is the same, `t` being in no call
  have hah : ∀ u, (∃ v, (s.loc v).ahead u) → ∃ v, ((s'.goto t l).loc v).ahead u := by
    rintro u ⟨v, hv⟩
    have hvt : v ≠ t := by
      rintro rfl
      exact hna hcall' hv
    exact ⟨v, by simpa [St.goto, hvt, hloc] using hv⟩
  have hex : ∀ u, s.exits u ≤ s'.exits u := fun u => by
    by_cases hu : u = t
    · exact hu ▸ hexits
    · exact (hother u hu).2.2.2.ge
  refine ⟨?_, fun u => ?_, hctr.trans (h.ctr.trans (congrArg (counter w · 0) hgps.symm)), ?_,
    fun u => ?_, fun u hu => ?_, ?_, ?_, ?_⟩
  · refine loc_goto (P := LocInv (s'.goto t l)) (hl.frame rfl rfl rfl fun _ => rfl) fun u hu => ?_
    obtain ⟨h1, h2, h3, -⟩ := hother u hu
    rw [hloc]
    exact (h.loc u).frame h1 h2 h3 fun _ => hctr
  · by_cases hu : u = t
    · exact hu ▸ hdepth
    · exact (hother u hu).2.1.trans_le (h.depth u)
  · refine loc_goto (P := fun u l => l.holding = true → s'.rcuGpLock = some u)
      (fun hh => absurd hh (by simp [(hnc hcall).1])) fun u _ hh => ?_
    rw [hloc] at hh
    exact hlock.trans (h.lock u hh)
  · show s'.sampled u ≤ s'.gps
    by_cases hu : u = t
    · rw [hu, hgps]
      exact hsam
    · rw [(hother u hu).2.2.1, hgps]
      exact h.sampled u
  · have hu : 0 < s'.depth u := hu
    show s'.sampled u ≤ _ ∧ _ ≤ s'.sampled u + 254 ∧ (s'.gps = _ ∨ s'.gps = _ ∧ _)
    rw [hgps]
    by_cases hut : u = t
    · subst hut
      rw [Function.update_self]
      obtain ⟨h1, h2, h3⟩ := hread hu
      exact ⟨h1, h2, h3.imp_right fun ⟨h4, h5⟩ => ⟨h4, hah u h5⟩⟩
    · rw [Function.update_of_ne hut, (hother u hut).2.2.1]
      obtain ⟨h1, h2, h3⟩ := h.reader u ((hother u hut).2.1 ▸ hu)
      exact ⟨h1, h2, h3.imp_right fun ⟨h4, h5⟩ => ⟨h4, hah u h5⟩⟩
  · refine loc_goto (P := fun v l => l.inCall = true → begun v ≤ s'.gps ∧ ∀ u k, s'.snap v u = some k →
      k ≤ s'.exits u ∧ (s'.exits u = k → 0 < s'.depth u ∧ Function.update entered t e u ≤ begun v))
      (fun hh => absurd hh (by simp [hcall])) fun v _ hv => ?_
    rw [hloc] at hv
    obtain ⟨h1, h2⟩ := h.snap v hv
    refine ⟨hgps ▸ h1, fun u k hk => ?_⟩
    obtain ⟨h3, h4⟩ := h2 u k (hsnap ▸ hk)
    refine ⟨h3.trans (hex u), fun hk' => ?_⟩
    have hsame : s.exits u = k := le_antisymm (hk' ▸ hex u) h3
    obtain ⟨h5, h6⟩ := h4 hsame
    by_cases hut : u = t
    · subst hut
      obtain ⟨h7, h8⟩ := hstay (hk'.trans hsame.symm) h5
      exact ⟨h7, by rw [Function.update_self, h8]; exact h6⟩
    · exact ⟨(hother u hut).2.1 ▸ h5, by rw [Function.update_of_ne hut]; exact h6⟩
  · refine loc_goto (P := fun v l => l.advanced = true → begun v < s'.gps)
      (fun hh => absurd hh (by simp [(hnc hcall).2])) fun v _ hv => ?_
    rw [hloc] at hv
    exact hgps ▸ h.begun v hv
  · refine loc_goto (P := fun v l => ∀ u k, l.past u → s'.snap v u = some k → k < s'.exits u)
      (fun u k hu _ => absurd hu (hnp hcall)) fun v _ u k hu hk => ?_
    rw [hloc] at hu
    exact (h.past v u k hu (hsnap ▸ hk)).trans_le (hex u)

/-! ### The steps of `synchronize_rcu` -/

/-- The call notes who has to be waited for. -/
theorem InvOf.call (h : InvOf entered begun s) (hloc : s.loc t = .idle) :
    InvOf entered (Function.update begun t s.gps) ((s.observe t).goto t .syncLock) := by
  have hl : Pub s t (s.depth t) := by
    have := h.loc t
    rwa [hloc] at this
  refine
    { h with
      loc := loc_goto (P := LocInv ((s.observe t).goto t .syncLock)) hl
        fun u _ => (h.loc u).frame rfl rfl rfl fun _ => rfl
      lock := loc_goto (P := fun u l => l.holding = true → s.rcuGpLock = some u)
        (fun hh => by cases hh) fun u _ => h.lock u
      reader := fun u hu => ?_
      snap := loc_goto (P := fun v l => l.inCall = true →
        Function.update begun t s.gps v ≤ s.gps ∧ ∀ u k, (s.observe t).snap v u = some k →
          k ≤ s.exits u ∧ (s.exits u = k → 0 < s.depth u ∧ entered u ≤
            Function.update begun t s.gps v)) (fun _ => ?_) fun v hv hc => ?_
      begun := loc_goto (P := fun v l => l.advanced = true →
        Function.update begun t s.gps v < s.gps) (fun hh => by cases hh) fun v hv hc => ?_
      past := loc_goto (P := fun v l => ∀ u k, l.past u → (s.observe t).snap v u = some k →
        k < s.exits u) (fun u k hu => hu.elim) fun v hv u k hu hk => ?_ }
  · obtain ⟨h1, h2, h3⟩ := h.reader u hu
    refine ⟨h1, h2, h3.imp_right fun ⟨h4, v, hv⟩ => ⟨h4, v, ?_⟩⟩
    have hvt : v ≠ t := by
      rintro rfl
      rw [hloc] at hv
      exact hv
    simpa [St.goto, St.observe, hvt] using hv
  · rw [Function.update_self]
    refine ⟨le_rfl, fun u k hk => ?_⟩
    have hk : (if 0 < s.depth u then some (s.exits u) else none) = some k := by
      simpa [St.observe] using hk
    split at hk
    · rename_i hd
      cases hk
      refine ⟨le_rfl, fun _ => ⟨hd, ?_⟩⟩
      obtain ⟨-, -, h3⟩ := h.reader u hd
      omega
    · cases hk
  · rw [Function.update_of_ne hv]
    simpa [St.observe, hv] using h.snap v hc
  · rw [Function.update_of_ne hv]
    exact h.begun v hc
  · exact h.past v u k hu (by simpa [St.observe, hv] using hk)

/-- `spin_lock`, or `spin_unlock` of the thread that holds the lock. -/
theorem InvOf.relock {l : Loc w n} {k : Option (Fin n)} (h : InvOf entered begun s)
    (hk : ∀ u, u ≠ t → (s.loc u).holding = true → k = some u) (hl : LocInv s t l)
    (hhold : l.holding = true → k = some t) (hahead : ∀ u, ¬ (s.loc t).ahead u)
    (hcall : (s.loc t).inCall = true) (hadv : l.advanced = true → (s.loc t).advanced = true)
    (hpast : ∀ u, l.past u → (s.loc t).past u) :
    InvOf entered begun ({ s with rcuGpLock := k }.goto t l) :=
  { h with
    loc := loc_goto (P := LocInv ({ s with rcuGpLock := k }.goto t l))
      (hl.frame rfl rfl rfl fun _ => rfl) fun u _ => (h.loc u).frame rfl rfl rfl fun _ => rfl
    lock := loc_goto (P := fun u l => l.holding = true → k = some u) hhold hk
    reader := fun u hu => by
      obtain ⟨h1, h2, h3⟩ := h.reader u hu
      refine ⟨h1, h2, h3.imp_right fun ⟨h4, v, hv⟩ => ⟨h4, v, ?_⟩⟩
      have hvt : v ≠ t := by
        rintro rfl
        exact hahead u hv
      simpa [St.goto, hvt] using hv
    snap := loc_goto (P := fun t l => l.inCall = true → _) (fun _ => h.snap t hcall)
      fun u _ => h.snap u
    begun := loc_goto (P := fun t l => l.advanced = true → _) (fun hi => h.begun t (hadv hi))
      fun u _ => h.begun u
    past := loc_goto (P := fun t l => ∀ u k, l.past u → s.snap t u = some k → k < s.exits u)
      (fun u k hu hk => h.past t u k (hpast u hu) hk) fun u _ => h.past u }

/-- The counter is advanced; the scan starts. -/
theorem InvOf.advance (h : InvOf entered begun s) (hloc : s.loc t = .syncWrite s.rcuGpCtr) :
    InvOf entered begun ({ s with
      rcuGpCtr := s.rcuGpCtr + rcuGpCtrBottomBit w, gps := s.gps + 1 }.goto t (scanFrom 0)) := by
  have hlock : s.rcuGpLock = some t := h.lock t (by rw [hloc]; rfl)
  have hnh : ∀ u, u ≠ t → (s.loc u).holding = false := fun u hu => by
    by_contra hh
    exact hu (Option.some.inj ((h.lock u (by simpa using hh)).symm.trans hlock))
  have hlt : Pub s t (s.depth t) := by
    have := h.loc t
    rw [hloc] at this
    exact this.1
  refine ⟨?_, h.depth, ?_, ?_, fun u => (h.sampled u).trans (Nat.le_succ _), fun u hu => ?_, ?_, ?_, ?_⟩
  · refine loc_goto (P := LocInv ({ s with
      rcuGpCtr := s.rcuGpCtr + rcuGpCtrBottomBit w, gps := s.gps + 1 }.goto t (scanFrom 0)))
      ?_ fun u hu => (h.loc u).frame rfl rfl rfl fun hh => absurd hh (by simp [hnh u hu])
    unfold scanFrom
    split <;> exact hlt
  · show s.rcuGpCtr + rcuGpCtrBottomBit w = counter w (s.gps + 1) 0
    rw [h.ctr, counter_next]
  · exact loc_goto (P := fun u l => l.holding = true → s.rcuGpLock = some u) (fun _ => hlock)
      fun u _ => h.lock u
  · obtain ⟨h1, h2, h3⟩ := h.reader u hu
    rcases h3 with h3 | ⟨-, v, hv⟩
    · refine ⟨h1, h2, .inr ⟨congrArg (· + 1) h3, t, ?_⟩⟩
      simpa [St.goto] using Loc.ahead_scanFrom.mpr (Nat.zero_le _)
    · have hvt : v = t := by
        by_contra hvt
        have := hnh v hvt
        rw [Loc.ahead_holding hv] at this
        cases this
      rw [hvt, hloc] at hv
      exact hv.elim
  · refine loc_goto (P := fun t l => l.inCall = true → begun t ≤ s.gps + 1 ∧ _) (fun _ => ?_)
      fun u _ hc => ?_
    · obtain ⟨h1, h2⟩ := h.snap t (by rw [hloc]; rfl)
      exact ⟨h1.trans (Nat.le_succ _), h2⟩
    · obtain ⟨h1, h2⟩ := h.snap u hc
      exact ⟨h1.trans (Nat.le_succ _), h2⟩
  · refine loc_goto (P := fun t l => l.advanced = true → begun t < s.gps + 1) (fun _ => ?_)
      fun u _ hc => (h.begun u hc).trans (Nat.lt_succ_self _)
    exact Nat.lt_succ_of_le (h.snap t (by rw [hloc]; rfl)).1
  · refine loc_goto (P := fun t l => ∀ u k, l.past u → s.snap t u = some k → k < s.exits u)
      (fun u k hu => ?_) fun u _ => h.past u
    exact absurd (Loc.past_scanFrom.mp hu) (Nat.not_lt_zero _)

/-! ### Every step -/

theorem scanFrom_locInv {i : ℕ} (h : Pub s t (s.depth t)) : LocInv s t (scanFrom i) := by
  unfold scanFrom
  split <;> exact h

/-- `inv_step` for the steps of a reader. -/
theorem inv_reader (hw : 32 ≤ w) (h : InvOf entered begun s) (hok : GpOk (.step t) s)
    (hc : (s.loc t).inCall = false) (hn : stepThread t s = some s') : Inv s' := by
  have hl := h.loc t
  have hd := h.depth t
  cases hloc : s.loc t <;> rw [hloc] at hl <;> simp only [hloc, Loc.inCall, reduceCtorEq] at hc <;>
    simp only [stepThread, hloc, reduceCtorEq] at hn
  case lockRead =>
    obtain ⟨hd', hp⟩ := hl
    obtain ⟨b, hb, hs⟩ := id hp
    split at hn <;> rename_i hz <;> cases hn <;> refine ⟨entered, begun, h.goto ?_ (by simp [Loc.holding])
      (by simp [hloc, Loc.ahead]) (by simp [Loc.inCall]) (by simp [Loc.advanced]) (by simp [Loc.past])⟩
    · rw [hb, show (0 : BitVec w) = BitVec.ofNat w 0 from rfl,
        nest_counter_eq hw (by omega) (by omega)] at hz
      exact ⟨hz, hp⟩
    · refine ⟨hd', hp, ?_⟩
      have hpos : 0 < s.depth t := by
        by_contra h0
        have h0 : s.depth t = 0 := by omega
        exact hz (by rw [hb, h0, nest_counter hw (by omega)]; rfl)
      rw [hb, counter_succ, hs hpos]
  case lockCtr =>
    obtain ⟨h0, b, hb, -⟩ := hl
    cases hn
    refine ⟨_, begun, h.own (e := entered t) rfl rfl rfl rfl rfl (fun u hu => by simp [hu]) ?_ rfl
      (by rw [hloc]; rfl) hd (by simp) (fun hp => by simp [h0] at hp) le_rfl fun _ hp => ⟨hp, rfl⟩⟩
    refine ⟨by simp [h0], ⟨b, hb, fun hp => by simp [h0] at hp⟩, ?_⟩
    simp only [h0, Function.update_self, Nat.zero_add, h.ctr, counter_succ]
  case lockWrite tmp =>
    obtain ⟨hd', ⟨b, hb, hs⟩, rfl⟩ := hl
    have hone := nest_counter_eq (b := s.sampled t) hw (show s.depth t + 1 < 128 by omega)
      (show 1 < 128 by omega)
    split at hn <;> rename_i h1 <;> cases hn
    · have h0 : s.depth t = 0 := by
        have := hone.mp h1
        omega
      refine ⟨_, begun, h.own (e := entered t) rfl rfl rfl rfl rfl
        (fun u hu => by simp [St.publish, hu]) ?_ rfl (by rw [hloc]; rfl) hd (h.sampled t)
        (fun hp => by simp [St.publish, h0] at hp) le_rfl fun _ hp => ⟨hp, rfl⟩⟩
      exact ⟨h0, ⟨_, by simp [St.publish, h0], fun _ => rfl⟩, by simp [h0, St.publish]⟩
    · have hpos : 0 < s.depth t := by
        have := hone.not.mp h1
        omega
      obtain ⟨h2, h3, h4⟩ := h.reader t hpos
      refine ⟨_, begun, h.own (e := entered t) rfl rfl rfl rfl rfl
        (fun u hu => by simp [St.publish, St.enter, hu]) ?_ rfl (by rw [hloc]; rfl)
        (by simp only [St.publish, St.enter, Function.update_self]; omega) (h.sampled t)
        (fun _ => ⟨h2, h3, h4⟩) le_rfl fun _ _ => ⟨by simp [St.publish, St.enter], rfl⟩⟩
      exact ⟨_, by simp [St.publish, St.enter], fun _ => rfl⟩
  case lockCheck tmp =>
    obtain ⟨h0, ⟨b, hb, hs⟩, rfl⟩ := hl
    split at hn <;> rename_i hge <;> cases hn
    · exact ⟨entered, begun, h.goto ⟨h0, b, hb, hs⟩ (by simp [Loc.holding])
        (by simp [hloc, Loc.ahead]) (by simp [Loc.inCall]) (by simp [Loc.advanced]) (by simp [Loc.past])⟩
    · rw [h.ctr] at hge
      simp only [GpOk, hloc] at hok
      have hle := le_of_not_ulongCmpGe hw hok hge
      refine ⟨_, begun, h.own (e := s.gps) rfl rfl rfl rfl rfl (fun u hu => by simp [St.enter, hu]) ?_
        rfl (by rw [hloc]; rfl) (by simp [St.enter, h0]) (h.sampled t)
        (fun _ => ⟨h.sampled t, hle, .inl rfl⟩) le_rfl fun _ hp => by omega⟩
      exact ⟨b, by simp [St.enter, h0, hb], fun _ => hs Nat.one_pos⟩
  case retryRead =>
    obtain ⟨h0, hp⟩ := hl
    cases hn
    exact ⟨entered, begun, h.goto ⟨h0, hp, rfl⟩ (by simp [Loc.holding]) (by simp [hloc, Loc.ahead])
      (by simp [Loc.inCall]) (by simp [Loc.advanced]) (by simp [Loc.past])⟩
  case retryWrite v =>
    obtain ⟨h0, ⟨b, hb, hs⟩, rfl⟩ := hl
    cases hn
    refine ⟨_, begun, h.own (e := entered t) rfl rfl rfl rfl rfl
      (fun u hu => by simp [St.publish, hu]) ?_ rfl (by rw [hloc]; rfl) hd (h.sampled t)
      (fun hp => by simp [St.publish, h0] at hp) le_rfl fun _ hp => ⟨hp, rfl⟩⟩
    refine ⟨by simp [St.publish, h0], b, ?_, fun hp => by simp [St.publish, h0] at hp⟩
    simpa [St.publish, h0, hb] using counter_pred w b 0
  case unlockRead =>
    obtain ⟨h0, hp⟩ := hl
    cases hn
    exact ⟨entered, begun, h.goto ⟨h0, hp, rfl⟩ (by simp [Loc.holding]) (by simp [hloc, Loc.ahead])
      (by simp [Loc.inCall]) (by simp [Loc.advanced]) (by simp [Loc.past])⟩
  case unlockWrite v =>
    obtain ⟨h0, ⟨b, hb, hs⟩, rfl⟩ := hl
    cases hn
    obtain ⟨h2, h3, h4⟩ := h.reader t h0
    obtain ⟨d, hd1⟩ : ∃ d, s.depth t = d + 1 := ⟨s.depth t - 1, by omega⟩
    refine ⟨_, begun, h.own (e := entered t) rfl rfl rfl rfl rfl (fun u hu => ?_) ?_ rfl
      (by rw [hloc]; rfl) (by simp only [St.publish, St.leave, Function.update_self]; omega)
      (h.sampled t) (fun _ => ⟨h2, h3, h4⟩) ?_ ?_⟩
    · by_cases h1 : s.depth t = 1 <;> simp [St.publish, St.leave, hu, h1]
    · refine ⟨b, ?_, fun _ => hs h0⟩
      simpa [St.publish, St.leave, hb, hd1] using counter_pred w b d
    · by_cases h1 : s.depth t = 1 <;> simp [St.publish, St.leave, h1]
    · by_cases h1 : s.depth t = 1
      · simp [St.publish, St.leave, h1]
      · refine fun _ _ => ⟨?_, rfl⟩
        simp only [St.publish, St.leave, Function.update_self]
        omega

/-- `inv_step` for the steps of `synchronize_rcu`. -/
theorem inv_updater (hw : 32 ≤ w) (h : InvOf entered begun s) (hok : GpOk (.step t) s)
    (hc : (s.loc t).inCall = true) (hn : stepThread t s = some s') : Inv s' := by
  have hl := h.loc t
  -- a thread that was waited for, and has not left, was in its section before the call
  have hwait : ∀ u k, s.snap t u = some k → (s.loc t).advanced = true →
      k < s.exits u ∨ 0 < s.depth u ∧ s.gps ≠ entered u := by
    intro u k hk ha
    obtain ⟨h1, h2⟩ := (h.snap t hc).2 u k hk
    rcases h1.lt_or_eq with h1 | h1
    · exact .inl h1
    · have := h.begun t ha
      obtain ⟨h3, h4⟩ := h2 h1.symm
      exact .inr ⟨h3, by omega⟩
  cases hloc : s.loc t <;> rw [hloc] at hl <;> simp only [hloc, Loc.inCall, reduceCtorEq] at hc <;>
    simp only [stepThread, hloc] at hn
  case syncLock =>
    split at hn <;> rename_i hfree <;> cases hn
    refine ⟨entered, begun, h.relock (fun u _ hu => ?_) hl (fun _ => rfl) (by simp [hloc, Loc.ahead])
      (by rw [hloc]; rfl) (by simp [Loc.advanced]) (by simp [Loc.past])⟩
    rw [h.lock u hu] at hfree
    cases hfree
  case syncRead =>
    cases hn
    exact ⟨entered, begun, h.goto ⟨hl, rfl⟩ (fun _ => h.lock t (by rw [hloc]; rfl))
      (by simp [hloc, Loc.ahead]) (fun _ => by rw [hloc]; rfl) (by simp [Loc.advanced])
      (by simp [Loc.past])⟩
  case syncWrite v =>
    obtain ⟨-, rfl⟩ := hl
    cases hn
    exact ⟨entered, begun, h.advance hloc⟩
  case scanNest v =>
    have hlock := h.lock t (by rw [hloc]; rfl)
    split at hn <;> rename_i hz <;> cases hn
    · -- `v` is not nested: the scan goes on
      have hv : s.depth v = 0 := by
        by_contra h0
        exact h.nest_ne hw (Nat.pos_of_ne_zero h0) hz
      refine ⟨entered, begun, h.goto (scanFrom_locInv hl) (fun _ => hlock) (fun u hu => ?_)
        (fun _ => by rw [hloc]; rfl) (fun _ => by rw [hloc]; rfl) fun u k hu hk => ?_⟩
      · rw [hloc] at hu
        rw [Loc.ahead_scanFrom]
        have hu : v.val ≤ u.val := hu
        rcases hu.lt_or_eq with hu | hu
        · exact .inl hu
        · exact .inr (.inl (Fin.ext hu ▸ hv))
      · rw [hloc]
        rw [Loc.past_scanFrom] at hu
        rcases (Nat.lt_succ_iff.mp hu).lt_or_eq with hu | hu
        · exact .inl hu
        · refine .inr ((hwait u k hk (by rw [hloc]; rfl)).resolve_right fun hc => ?_)
          have := hc.1
          rw [Fin.ext hu, hv] at this
          exact this.false
    · exact ⟨entered, begun, h.goto hl (fun _ => hlock) (fun u hu => .inl (by rw [hloc] at hu; exact hu))
        (fun _ => by rw [hloc]; rfl) (fun _ => by rw [hloc]; rfl)
        fun u k hu hk => .inl (by rw [hloc]; exact hu)⟩
  case scanGp v =>
    cases hn
    simp only [GpOk, hloc] at hok
    refine ⟨entered, begun, h.goto hl (fun _ => h.lock t (by rw [hloc]; rfl)) (fun u hu => ?_)
      (fun _ => by rw [hloc]; rfl) (fun _ => by rw [hloc]; rfl) fun u k hu hk => ?_⟩
    · rw [hloc] at hu
      have hu : v ≤ u := hu
      rcases hu.lt_or_eq with hu | rfl
      · exact .inl hu
      · by_cases h0 : s.depth v = 0
        · exact .inr (.inl h0)
        · exact .inr (.inr (h.current hw (Nat.pos_of_ne_zero h0) hok))
    · rw [hloc]
      have hu : u ≤ v := hu
      rcases hu.lt_or_eq with hu | rfl
      · exact .inl hu
      · exact .inr ((hwait u k hk (by rw [hloc]; rfl)).resolve_right fun hc =>
          hc.2 (h.current hw hc.1 hok))
  case scanCtr v x =>
    rw [if_neg (difference_not_neg _ _)] at hn
    cases hn
    refine ⟨entered, begun, h.goto (scanFrom_locInv hl) (fun _ => h.lock t (by rw [hloc]; rfl))
      (fun u hu => ?_) (fun _ => by rw [hloc]; rfl) (fun _ => by rw [hloc]; rfl) fun u k hu hk => ?_⟩
    · rw [hloc] at hu
      exact .inl (Loc.ahead_scanFrom.mpr hu)
    · rw [Loc.past_scanFrom] at hu
      rw [hloc]
      exact .inl (Nat.lt_succ_iff.mp hu)
  case syncUnlock =>
    cases hn
    refine ⟨entered, begun, h.relock (fun u hu hh => ?_) hl (by simp [Loc.holding])
      (by simp [hloc, Loc.ahead]) (by rw [hloc]; rfl) (fun _ => by rw [hloc]; rfl)
      fun u _ => by rw [hloc]; trivial⟩
    exact absurd (Option.some.inj ((h.lock u hh).symm.trans (h.lock t (by rw [hloc]; rfl)))) hu
  case syncReturn =>
    cases hn
    exact ⟨entered, begun, h.goto hl (by simp [Loc.holding]) (by simp [hloc, Loc.ahead])
      (by simp [Loc.inCall]) (by simp [Loc.advanced]) (by simp [Loc.past])⟩

/-- **The step lemma.** -/
theorem inv_step (hw : 32 ≤ w) {a : Act n} (h : Inv s) (hok : GpOk a s) (hn : next a s = some s') :
    Inv s' := by
  obtain ⟨entered, begun, h⟩ := h
  cases a with
  | rcuReadLock t =>
    simp only [next] at hn
    split at hn <;> rename_i hc <;> cases hn
    have hl := h.loc t
    rw [hc.1] at hl
    exact ⟨entered, begun, h.goto ⟨hc.2, hl⟩ (by simp [Loc.holding]) (by simp [hc.1, Loc.ahead])
      (by simp [Loc.inCall]) (by simp [Loc.advanced]) (by simp [Loc.past])⟩
  | rcuReadUnlock t =>
    simp only [next] at hn
    split at hn <;> rename_i hc <;> cases hn
    have hl := h.loc t
    rw [hc.1] at hl
    exact ⟨entered, begun, h.goto ⟨hc.2, hl⟩ (by simp [Loc.holding]) (by simp [hc.1, Loc.ahead])
      (by simp [Loc.inCall]) (by simp [Loc.advanced]) (by simp [Loc.past])⟩
  | synchronizeRcu t =>
    simp only [next] at hn
    split at hn <;> rename_i hc <;> cases hn
    exact ⟨_, _, h.call hc⟩
  | step t =>
    cases hc : (s.loc t).inCall
    · exact inv_reader hw h hok hc hn
    · exact inv_updater hw h hok hc hn

theorem inv_init (h : Init s) : Inv s :=
  ⟨fun _ => 0, fun _ => 0,
    { loc := fun t => by
        rw [h.loc t]
        exact ⟨0, by rw [h.word t, h.depth t]; rfl, fun hp => by simp [h.depth t] at hp⟩
      depth := fun t => by simp [h.depth t]
      ctr := by
        rw [h.ctr, h.gps]
        rfl
      lock := fun t => by simp [h.loc t, Loc.holding]
      sampled := fun t => (h.sampled t).le.trans (Nat.zero_le _)
      reader := fun u hu => by simp [h.depth u] at hu
      snap := fun t => by simp [h.loc t, Loc.inCall]
      begun := fun t => by simp [h.loc t, Loc.advanced]
      past := fun t => by simp [h.loc t, Loc.past] }⟩

theorem reach_inv (hw : 32 ≤ w) (h : (sys w n).Reach GpOk s) : Inv s :=
  h.inv (fun _ => inv_init) fun _ _ _ hi hok hn => inv_step hw hi hok hn

end Nest
end Rcu
end Perfbook
