/-
# The levels, while threads insert and delete

On each level the nodes that are linked are in order: the link of one leads to the
next one (`Chains.between`), so only one node leads to a given one
(`Chains.unique`). The stores of an insertion and of a deletion add and remove one
node on a level (`Chains.link`, `Chains.unlink`).

Key definition: `Chains`.
Key theorems: `Chains.unique`, `Chains.keeps`, `Chains.link`, `Chains.unlink`.
-/
import Perfbook.Skip.Relaxed

namespace Perfbook
namespace Skip
namespace Relaxed

open Par

variable {n : ℕ} {ν K : Type} [LinearOrder K] {E : Prop} {head : ν} {s s' : St n ν K}
  {on on' : ν → ℕ → Bool} {t u : Fin n} {l : Loc ν K} {p q x y cur slp new : ν} {key : K}
  {level i j m toplevel : ℕ} {c : Call ν K} {v : Vars ν} {o : Option ν}

/-- The nodes that are linked on each level. -/
structure Chains (head : ν) (s : St n ν K) (on : ν → ℕ → Bool) : Prop where
  headOn : ∀ i < maxLevels, on head i = true
  valid : ∀ p i, on p i = true → s.valid p i = true
  top : ∀ p i, on p i = true → i ≤ s.toplevel p
  down : ∀ p i j, on p i = true → j ≤ i → on p j = true
  next : ∀ p i q, on p i = true → s.next p i = some q → on q i = true
  between : ∀ p y i, on p i = true → on y i = true → Below head s p y →
    ∃ q, s.next p i = some q ∧ AtMost head s q y
  inj : ∀ p q, on p 0 = true → on q 0 = true → p ≠ head → q ≠ head → s.key p = s.key q → p = q
  above : ∀ p i, Node head s p → s.toplevel p < i → i < maxLevels → s.next p i = none

/-- Two nodes that are linked are in order. -/
theorem Chains.total (h : Chains head s on) (hp : on p i = true) (hq : on q i = true) :
    Below head s p q ∨ p = q ∨ Below head s q p := by
  by_cases hph : p = head
  · by_cases hqh : q = head
    · exact .inr (.inl (hph.trans hqh.symm))
    · exact .inl ⟨hqh, .inl hph⟩
  · by_cases hqh : q = head
    · exact .inr (.inr ⟨hph, .inl hqh⟩)
    · rcases lt_trichotomy (s.key p) (s.key q) with hlt | he | hlt
      · exact .inl ⟨hqh, .inr hlt⟩
      · exact .inr (.inl (h.inj p q (h.down p i 0 hp (Nat.zero_le i)) (h.down q i 0 hq (Nat.zero_le i)) hph hqh he))
      · exact .inr (.inr ⟨hph, .inr hlt⟩)

section

variable (hi : Inv E head s) (h : Chains head s on)
include hi h

theorem Chains.node (hp : on p i = true) : Node head s p := hi.validNode p i (h.valid p i hp)

theorem Chains.below (hp : on p i = true) (hq : s.next p i = some q) : Below head s p q :=
  (hi.link p i q (h.valid p i hp) hq).2.2

/-- Only one node leads to another one on a level. -/
theorem Chains.unique (hp : on p i = true) (hq : on q i = true) (hpx : s.next p i = some x)
    (hqx : s.next q i = some x) : p = q := by
  have hno : ∀ {p q}, on p i = true → on q i = true → s.next p i = some x → s.next q i = some x →
      ¬ Below head s p q := fun {p q} hp hq hpx hqx hlt => by
    obtain ⟨r, hr, hrq⟩ := h.between p q i hp hq hlt
    rw [hpx] at hr
    cases hr
    exact Below.irrefl (hrq.below (h.below hi hq hqx))
  rcases h.total hp hq with hlt | he | hlt
  · exact absurd hlt (hno hp hq hpx hqx)
  · exact he
  · exact absurd hlt (hno hq hp hqx hpx)

/-- Steps that change no node where it is linked. -/
theorem Chains.keeps (hkey : ∀ p, Node head s p → s'.key p = s.key p)
    (hvalid : ∀ p i, s.valid p i = true → s'.valid p i = true)
    (htop : ∀ p, Node head s p → s'.toplevel p = s.toplevel p)
    (hnext : ∀ p i, on p i = true → s'.next p i = s.next p i)
    (hnone : ∀ p i, Node head s' p → s'.toplevel p < i → i < maxLevels → s'.next p i = none) :
    Chains head s' on where
  headOn := h.headOn
  valid p i hp := hvalid p i (h.valid p i hp)
  top p i hp := by
    rw [htop p (h.node hi hp)]
    exact h.top p i hp
  down := h.down
  next p i q hp hq := h.next p i q hp (hnext p i hp ▸ hq)
  between p y i hp hy hpy := by
    rw [Below, hkey p (h.node hi hp), hkey y (h.node hi hy)] at hpy
    obtain ⟨q, hq, hqy⟩ := h.between p y i hp hy hpy
    refine ⟨q, (hnext p i hp).trans hq, ?_⟩
    rwa [AtMost, Below, hkey q (h.node hi (h.next p i q hp hq)), hkey y (h.node hi hy)]
  inj p q hp hq hph hqh he := by
    rw [hkey p (h.node hi hp), hkey q (h.node hi hq)] at he
    exact h.inj p q hp hq hph hqh he
  above := hnone

end

/-! ### One node more or less on a level -/

theorem below_atMost (h : Below head s p q) (h' : AtMost head s q x) : Below head s p x := by
  rcases h' with rfl | h'
  · exact h
  · exact h.trans h'

section

variable [DecidableEq ν]

omit [LinearOrder K] in
theorem setOn_apply (on : ν → ℕ → Bool) (x : ν) (i : ℕ) (b : Bool) (p : ν) (j : ℕ) :
    setOn on x i b p j = if p = x ∧ j = i then b else on p j := by
  simp only [setOn, Function.update_apply]
  by_cases hp : p = x
  · subst hp
    simp [Function.update_apply]
  · simp [hp]

omit [LinearOrder K] in
theorem setOn_true : setOn on x i true p j = true ↔ p = x ∧ j = i ∨ on p j = true := by
  rw [setOn_apply]
  split <;> simp_all

omit [LinearOrder K] in
theorem setOn_false : setOn on x i false p j = true ↔ ¬ (p = x ∧ j = i) ∧ on p j = true := by
  rw [setOn_apply]
  split <;> simp_all

variable (hi : Inv E head s) (h : Chains head s on) (hslp : on slp level = true)
include hi h hslp

/-- **A node is linked on a level**, when its own link was copied from the node before. -/
theorem Chains.link (hkey : s'.key = s.key) (hstage : s'.stage = s.stage) (hvalid : s'.valid = s.valid)
    (htop : s'.toplevel = s.toplevel)
    (hnext : ∀ p i, s'.next p i = if p = slp ∧ i = level then some new else s.next p i)
    (hbelow : Below head s slp new) (hcopy : s.next new level = s.next slp level)
    (hvn : s.valid new level = true) (hlow : ∀ j < level, on new j = true) (hlevel : level ≤ s.toplevel new) :
    Chains head s' (setOn on new level true) := by
  have hne : new ≠ slp := fun he => Below.irrefl (he ▸ hbelow)
  have hbelow' : ∀ {p q}, Below head s' p q ↔ Below head s p q := by
    simp only [Below, hkey, implies_true]
  have hatMost : ∀ {p q}, AtMost head s' p q ↔ AtMost head s p q := by
    simp only [AtMost, Below, hkey, implies_true]
  -- the node behind is behind the new one
  have hbehind : ∀ {q}, s.next slp level = some q → Below head s new q := fun hq =>
    (hi.link new level _ hvn (hcopy.trans hq)).2.2
  have hon : ∀ {p i}, on p i = true → setOn on new level true p i = true := fun hp => setOn_true.mpr (.inr hp)
  -- the new one is not level with another node
  have hsep : ∀ {y}, on y level = true → Below head s new y ∨ Below head s y new := fun {y} hy => by
    rcases h.total hslp hy with hlt | rfl | hlt
    · obtain ⟨q, hq, hqy⟩ := h.between slp y level hslp hy hlt
      exact .inl (below_atMost (hbehind hq) hqy)
    · exact .inr hbelow
    · exact .inr (hlt.trans hbelow)
  refine ⟨fun i hi => hon (h.headOn i hi), fun p i hp => ?_, fun p i hp => ?_, fun p i j hp hij => ?_,
    fun p i q hp hq => ?_, fun p y i hp hy hpy => ?_, fun p q hp hq hph hqh he => ?_, fun p i hp hpi him => ?_⟩
  · rw [hvalid]
    rcases setOn_true.mp hp with ⟨rfl, rfl⟩ | hp
    · exact hvn
    · exact h.valid p i hp
  · rw [htop]
    rcases setOn_true.mp hp with ⟨rfl, rfl⟩ | hp
    · exact hlevel
    · exact h.top p i hp
  · rcases setOn_true.mp hp with ⟨rfl, rfl⟩ | hp
    · rcases hij.eq_or_lt with rfl | hlt
      · exact setOn_true.mpr (.inl ⟨rfl, rfl⟩)
      · exact hon (hlow j hlt)
    · exact hon (h.down p i j hp hij)
  · rw [hnext] at hq
    split at hq
    · next he => exact setOn_true.mpr (.inl ⟨(Option.some.inj hq).symm, he.2⟩)
    · rcases setOn_true.mp hp with ⟨rfl, rfl⟩ | hp
      · exact hon (h.next slp i q hslp (hcopy.symm.trans hq))
      · exact hon (h.next p i q hp hq)
  · rw [hbelow'] at hpy
    simp only [hnext, hatMost]
    rcases setOn_true.mp hp with ⟨rfl, rfl⟩ | hpo
    · -- what is behind the new node is behind the one before
      rw [if_neg fun hc => hne hc.1, hcopy]
      rcases setOn_true.mp hy with ⟨rfl, -⟩ | hyo
      · exact absurd hpy Below.irrefl
      · exact h.between slp y i hslp hyo (hbelow.trans hpy)
    · split
      · next he =>
        obtain ⟨rfl, rfl⟩ := he
        refine ⟨new, rfl, ?_⟩
        rcases setOn_true.mp hy with ⟨rfl, -⟩ | hyo
        · exact .inl rfl
        · obtain ⟨q, hq, hqy⟩ := h.between p y i hslp hyo hpy
          exact .inr (below_atMost (hbehind hq) hqy)
      · next he =>
        rcases setOn_true.mp hy with ⟨rfl, rfl⟩ | hyo
        · rcases h.total hpo hslp with hlt | rfl | hlt
          · obtain ⟨q, hq, hqs⟩ := h.between p slp i hpo hslp hlt
            exact ⟨q, hq, .inr (hqs.below hbelow)⟩
          · exact absurd ⟨rfl, rfl⟩ he
          · obtain ⟨q, hq, hqp⟩ := h.between slp p i hslp hpo hlt
            exact absurd ((below_atMost (hbehind hq) hqp).trans hpy) Below.irrefl
        · exact h.between p y i hpo hyo hpy
  · rw [hkey] at he
    have hnot : ∀ {y}, on y 0 = true → 0 = level → new ≠ head → y ≠ head → s.key new ≠ s.key y :=
      fun {y} hy h0 hnh hyh he => by
        rcases hsep (h0 ▸ hy) with hlt | hlt
        · exact absurd he (hlt.2.resolve_left hnh).ne
        · exact absurd he (hlt.2.resolve_left hyh).ne'
    rcases setOn_true.mp hp with ⟨rfl, h0⟩ | hpo
    · rcases setOn_true.mp hq with ⟨rfl, -⟩ | hqo
      · rfl
      · exact absurd he (hnot hqo h0 hph hqh)
    · rcases setOn_true.mp hq with ⟨rfl, h0⟩ | hqo
      · exact absurd he.symm (hnot hpo h0 hqh hph)
      · exact h.inj p q hpo hqo hph hqh he
  · rw [htop] at hpi
    rw [hnext, if_neg fun hc => ?_]
    · exact h.above p i (hp.imp_right fun hin => hstage ▸ hin) hpi him
    · exact absurd (h.top slp level hslp) (not_le.mpr (hc.1 ▸ hc.2 ▸ hpi))

/-- **A node is unlinked on a level.** -/
theorem Chains.unlink (hkey : s'.key = s.key) (hstage : s'.stage = s.stage) (hvalid : s'.valid = s.valid)
    (htop : s'.toplevel = s.toplevel)
    (hnext : ∀ p i, s'.next p i = if p = slp ∧ i = level then s.next cur level else s.next p i)
    (hcur : on cur level = true) (hlink : s.next slp level = some cur) (hne : cur ≠ head)
    (hoff : ∀ j, level < j → on cur j = false) : Chains head s' (setOn on cur level false) := by
  have hbelow' : ∀ {p q}, Below head s' p q ↔ Below head s p q := by
    simp only [Below, hkey, implies_true]
  have hatMost : ∀ {p q}, AtMost head s' p q ↔ AtMost head s p q := by
    simp only [AtMost, Below, hkey, implies_true]
  have hon : ∀ {p i}, setOn on cur level false p i = true → on p i = true := fun hp => (setOn_false.mp hp).2
  refine ⟨fun i hi => setOn_false.mpr ⟨fun hc => hne hc.1.symm, h.headOn i hi⟩, fun p i hp => ?_, fun p i hp => ?_,
    fun p i j hp hij => ?_, fun p i q hp hq => ?_, fun p y i hp hy hpy => ?_, fun p q hp hq hph hqh he => ?_,
    fun p i hp hpi him => ?_⟩
  · rw [hvalid]
    exact h.valid p i (hon hp)
  · rw [htop]
    exact h.top p i (hon hp)
  · refine setOn_false.mpr ⟨fun hc => ?_, h.down p i j (hon hp) hij⟩
    obtain ⟨rfl, rfl⟩ := hc
    rcases hij.eq_or_lt with rfl | hlt
    · exact (setOn_false.mp hp).1 ⟨rfl, rfl⟩
    · exact absurd (hon hp) (Bool.eq_false_iff.mp (hoff i hlt))
  · rw [hnext] at hq
    split at hq
    · next he =>
      obtain ⟨rfl, rfl⟩ := he
      refine setOn_false.mpr ⟨fun hc => ?_, h.next cur i q hcur hq⟩
      exact Below.irrefl (hc.1 ▸ h.below hi hcur hq)
    · next he =>
      refine setOn_false.mpr ⟨fun hc => ?_, h.next p i q (hon hp) hq⟩
      obtain ⟨rfl, rfl⟩ := hc
      exact he ⟨h.unique hi (hon hp) hslp hq hlink, rfl⟩
  · rw [hbelow'] at hpy
    simp only [hnext, hatMost]
    split
    · next he =>
      obtain ⟨rfl, rfl⟩ := he
      obtain ⟨q, hq, hqy⟩ := h.between p y i (hon hp) (hon hy) hpy
      rw [hlink] at hq
      cases hq
      rcases hqy with rfl | hlt
      · exact absurd ⟨rfl, rfl⟩ (setOn_false.mp hy).1
      · exact h.between cur y i hcur (hon hy) hlt
    · exact h.between p y i (hon hp) (hon hy) hpy
  · rw [hkey] at he
    exact h.inj p q (hon hp) (hon hq) hph hqh he
  · rw [htop] at hpi
    rw [hnext, if_neg fun hc => ?_]
    · exact h.above p i (hp.imp_right fun hin => hstage ▸ hin) hpi him
    · exact absurd (h.top slp level hslp) (not_le.mpr (hc.1 ▸ hc.2 ▸ hpi))

end

end Relaxed
end Skip
end Perfbook
