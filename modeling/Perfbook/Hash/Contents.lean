/-
# What the resizable hash table holds

An update section here runs whole, between two steps of the resizer (`Whole`).
Then the table holds what was added and not deleted, and a lookup finds an
element of its key if there is one, in any number of resizes.

`ht_alloc` and `hashtab_resize` count the buckets in an `int`. Nothing is known
once it has overflowed (`intSys`). It overflows in `ht_alloc` for more than
`INT_MAX` buckets (`resize_overflows`), and then only: a table that `ht_alloc`
has returned has no more (`Counts`), so the loop of `hashtab_resize` ends.

Key definitions: `Whole`, `Contents`, `Seen`, `Overflows`, `intSys`, `Counts`.
Key theorems: `inv_stepThread`, `inv_stepResizer`, `inv_next`, `counts_stepResizer`,
`resize_contents`, `resize_overflows`.
-/
import Perfbook.Hash.Inv

namespace Perfbook
namespace Hash

open Conc

variable {n : ℕ} {E K : Type}

/-! ### What is claimed -/

/-- A section of a thread runs while the resizer and the other threads stand still. -/
def Whole : Act n E K → St n E K → Prop
  | .lookup t _, s | .update t _, s | .step t, s | .add t _, s => ∀ u, u ≠ t → (s.loc u).isIdle = true
  | .resize _ _ _, s | .resizer, s => ∀ u, (s.loc u).isIdle = true
  | .reclaim _, _ => True

/-- The resizer is not moving a bucket. -/
def Res.between : Res E → Bool
  | .first _ _ _ | .walk _ _ _ _ | .newBucket _ _ _ _ _ | .link _ _ _ _ _ | .newUnlock _ _ _ _ _
  | .nextElem _ _ _ _ | .setCur _ _ _ => false
  | _ => true

/-- The table holds what was added and not deleted, whatever the resizer has done. -/
structure Contents [DecidableEq K] (s : St n E K) : Prop where
  /-- the buckets of `ht_cur` hold these elements, each once and in its bucket -/
  cur : ∀ b e, e ∈ s.elems (s.cur, b) ↔ b = s.bucket s.cur (s.key e) ∧ s.abs e = true
  nodup : ∀ b, (s.elems (s.cur, b)).Nodup
  /-- and those of `ht_new` what was moved, and between two buckets nothing else -/
  new : s.res.between = true → ∀ g', (s.tab s.cur).new = some g' → ∀ b e, e ∈ s.elems (g', b) ↔
    b = s.bucket g' (s.key e) ∧ s.abs e = true ∧
      (s.bucket s.cur (s.key e) : ℤ) ≤ (s.tab s.cur).resizeCur
  moved : ∀ g', (s.tab s.cur).new = some g' → ∀ e, s.abs e = true →
    (s.bucket s.cur (s.key e) : ℤ) ≤ (s.tab s.cur).resizeCur → e ∈ s.elems (g', s.bucket g' (s.key e))
  newNodup : ∀ g', (s.tab s.cur).new = some g' → ∀ b, (s.elems (g', b)).Nodup
  found : ∀ k, Found s.toCore s.abs k (s.lookup k)
  /-- a resize that is about to return 0 has made the new table `ht_cur` -/
  returned : ∀ g g', s.res = .free g g' → s.cur = g'

variable {c : Core n E K} {abs : E → Bool} {D : List E} {t : Fin n} {op : Op K} {ls : LockState}

/-! ### The steps of a thread -/

theorem locInv_locked (L : Locked c t op ls) (hx : ∀ x, ls.hbp1 = some x → x.1 ≠ c.cur) :
    LocInv c abs t (.locked op ls) := by
  cases hlook : op.look with
  | true =>
    simp only [Loc.locked, hlook, if_true]
    exact L
  | false =>
    cases hadd : op.add with
    | true =>
      simp only [Loc.locked, hlook, hadd, Bool.false_eq_true, if_false, if_true]
      exact ⟨L, fun ht => absurd (hlook.symm.trans ht) Bool.false_ne_true⟩
    | false =>
      simp only [Loc.locked, hlook, hadd, Bool.false_eq_true, if_false]
      exact ⟨L.lock, hx⟩

theorem locInv_missed (L : Locked c t op ls) (hx : ∀ x, ls.hbp1 = some x → x.1 ≠ c.cur)
    (hf : Found c abs op.key none) : LocInv c abs t (.missed op ls) := by
  cases hadd : op.add with
  | true =>
    simp only [Loc.missed, hadd, if_true]
    exact ⟨L, fun _ => hf⟩
  | false =>
    simp only [Loc.missed, hadd, Bool.false_eq_true, if_false]
    exact ⟨L.lock, hx⟩

theorem adding_locked : adding (.locked op ls : Loc E K) = none := by
  unfold Loc.locked
  split
  · rfl
  · split <;> rfl

theorem deleting_locked : deleting (.locked op ls : Loc E K) = none := by
  unfold Loc.locked
  split
  · rfl
  · split <;> rfl

theorem adding_missed : adding (.missed op ls : Loc E K) = none := by
  unfold Loc.missed
  split <;> rfl

theorem deleting_missed : deleting (.missed op ls : Loc E K) = none := by
  unfold Loc.missed
  split <;> rfl

/-- A thread takes a lock that is free. -/
theorem Inv.taken (h : Inv c abs D) {x : ℕ × ℕ} {w : Option (Who n)} (hx : c.lock x = none) :
    ∀ y, c.res.bucketLock = some y → Function.update c.lock x w y = some .resizer := by
  intro y hy
  have hne : y ≠ x := by
    rintro rfl
    rw [h.lock y hy] at hx
    cases hx
  rw [Function.update_of_ne hne]
  exact h.lock y hy

/-- A thread drops a lock that the resizer does not have. -/
theorem Inv.dropped (h : Inv c abs D) {x : ℕ × ℕ} {w : Option (Who n)}
    (hx : c.res.bucketLock ≠ some x) :
    ∀ y, c.res.bucketLock = some y → Function.update c.lock x w y = some .resizer := by
  intro y hy
  have hne : y ≠ x := fun heq => hx (heq ▸ hy)
  rw [Function.update_of_ne hne]
  exact h.lock y hy

variable [DecidableEq E] [DecidableEq K] {s s' : St n E K}

/-- **A step of a thread** keeps the invariant, if it is the only one that is not idle. -/
theorem inv_stepThread (h : Inv s.toCore s.abs D) (hi : ∀ u, u ≠ t → (s.loc u).isIdle = true)
    (hn : stepThread t s = some s') : Inv s'.toCore s'.abs D := by
  have hlt := h.loc t
  unfold stepThread at hn
  cases hl : s.loc t with
  | idle =>
    rw [hl] at hn
    cases hn
  | readLock k =>
    rw [hl] at hn
    obtain rfl := Option.some.inj hn
    exact h.walk hi (by rw [hl]; rfl) (by rw [hl]; rfl) h.lock trivial
  | readCur k =>
    rw [hl] at hn
    obtain rfl := Option.some.inj hn
    exact h.walk hi (by rw [hl]; rfl) (by rw [hl]; rfl) h.lock ⟨rfl, rfl⟩
  | readHead k g b =>
    rw [hl] at hn hlt
    obtain rfl := Option.some.inj hn
    obtain ⟨rfl, rfl⟩ := hlt
    have A := AtCell.start h k
    exact h.walk hi (by rw [hl]; rfl) (by rw [hl]; rfl) h.lock ⟨A.cur, A.bucket, A.cell⟩
  | readWalk k g b x =>
    rw [hl] at hn hlt
    have A : AtCell s.toCore k g b x := hlt
    cases x with
    | head g' b' =>
      dsimp only at hn
      split at hn
      · obtain rfl := Option.some.inj hn
        have hf := A.missed h
        exact h.walk hi (by rw [hl]; rfl) (by rw [hl]; rfl) h.lock hf
      · cases hn
    | link e i =>
      dsimp only at hn
      split at hn
      · obtain rfl := Option.some.inj hn
        by_cases hk : s.key e = k
        · rw [if_pos hk]
          have hf := A.found h hk
          exact h.walk hi (by rw [hl]; rfl) (by rw [hl]; rfl) h.lock hf
        · rw [if_neg hk]
          have A' := A.next h hk
          exact h.walk hi (by rw [hl]; rfl) (by rw [hl]; rfl) h.lock ⟨A'.cur, A'.bucket, A'.cell⟩
      · cases hn
  | readUnlock k x =>
    rw [hl] at hn
    obtain rfl := Option.some.inj hn
    exact h.walk hi (by rw [hl]; rfl) (by rw [hl]; rfl) h.lock trivial
  | modLock op =>
    rw [hl] at hn
    obtain rfl := Option.some.inj hn
    exact h.walk hi (by rw [hl]; rfl) (by rw [hl]; rfl) h.lock trivial
  | modCur op =>
    rw [hl] at hn
    obtain rfl := Option.some.inj hn
    exact h.walk hi (by rw [hl]; rfl) (by rw [hl]; rfl) h.lock ⟨rfl, rfl⟩
  | modBucket op g b =>
    rw [hl] at hn hlt
    dsimp only at hn
    split at hn
    · rename_i hfree
      obtain rfl := Option.some.inj hn
      exact h.walk hi (by rw [hl]; rfl) (by rw [hl]; rfl) (h.taken hfree)
        ⟨hlt, Function.update_self ..⟩
    · cases hn
  | modProgress op g b =>
    rw [hl] at hn hlt
    obtain rfl := Option.some.inj hn
    obtain ⟨⟨rfl, rfl⟩, hlock⟩ := hlt
    split
    · rename_i hgt
      exact h.walk hi (by rw [hl]; exact adding_locked) (by rw [hl]; exact deleting_locked) h.lock
        (locInv_locked ⟨rfl, rfl, hlock, fun _ => hgt, fun _ hx => nomatch hx⟩ fun _ hx => nomatch hx)
    · rename_i hle
      exact h.walk hi (by rw [hl]; rfl) (by rw [hl]; rfl) h.lock ⟨⟨rfl, rfl⟩, hlock, Int.not_lt.mp hle⟩
  | modNew op g b =>
    rw [hl] at hn hlt
    dsimp only at hn
    obtain ⟨⟨rfl, rfl⟩, hlock, hle⟩ := hlt
    split at hn
    · cases hn
    · rename_i g' hnew
      obtain rfl := Option.some.inj hn
      exact h.walk hi (by rw [hl]; rfl) (by rw [hl]; rfl) h.lock ⟨⟨rfl, rfl⟩, hlock, hle, hnew, rfl⟩
  | modNewBucket op g b g' b' =>
    rw [hl] at hn hlt
    dsimp only at hn
    obtain ⟨⟨rfl, rfl⟩, hlock, hle, hnew, rfl⟩ := hlt
    split at hn
    · rename_i hfree
      obtain rfl := Option.some.inj hn
      obtain ⟨g₁, hb⟩ := h.building hnew
      have hne : (s.cur, s.bucket s.cur op.key) ≠ (g', s.bucket g' op.key) := fun heq =>
        (h.built _ _ hb).ne (congrArg Prod.fst heq).symm
      refine h.walk hi (by rw [hl]; exact adding_locked) (by rw [hl]; exact deleting_locked) (h.taken hfree)
        (locInv_locked ⟨rfl, rfl, ?_, fun hx => (nomatch hx), fun x hx => ?_⟩ fun x hx => ?_)
      · exact (Function.update_of_ne hne _ _).trans hlock
      · obtain rfl := Option.some.inj hx
        exact ⟨hle, hnew, rfl⟩
      · obtain rfl := Option.some.inj hx
        exact (h.built _ _ hb).ne
    · cases hn
  | lookCur op ls =>
    rw [hl] at hn hlt
    obtain rfl := Option.some.inj hn
    have L : Locked s.toCore t op ls := hlt
    exact h.walk hi (by rw [hl]; rfl) (by rw [hl]; rfl) h.lock
      ⟨L.goto, rfl, rfl⟩
  | lookHead op ls g b =>
    rw [hl] at hn hlt
    obtain rfl := Option.some.inj hn
    obtain ⟨L, rfl, rfl⟩ := hlt
    have A := AtCell.start h op.key
    exact h.walk hi (by rw [hl]; rfl) (by rw [hl]; rfl) h.lock
      ⟨L.goto, A.cur, A.bucket, A.cell⟩
  | lookWalk op ls g b x =>
    rw [hl] at hn hlt
    obtain ⟨L, A⟩ := hlt
    cases x with
    | head g' b' =>
      dsimp only at hn
      split at hn
      · obtain rfl := Option.some.inj hn
        have hf := A.missed h
        exact h.walk hi (by rw [hl]; exact adding_missed) (by rw [hl]; exact deleting_missed) h.lock
          (locInv_missed L.goto (h.unlockOld L).2 hf)
      · cases hn
    | link e i =>
      dsimp only at hn
      split at hn
      · obtain rfl := Option.some.inj hn
        by_cases hk : s.key e = op.key
        · rw [if_pos hk]
          have hf := A.found h hk
          exact h.walk hi (by rw [hl]; rfl) (by rw [hl]; rfl) h.lock
            ⟨L.goto, hf⟩
        · rw [if_neg hk]
          have A' := A.next h hk
          exact h.walk hi (by rw [hl]; rfl) (by rw [hl]; rfl) h.lock
            ⟨L.goto, A'.cur, A'.bucket, A'.cell⟩
      · cases hn
  | del op ls e =>
    rw [hl] at hn
    dsimp only at hn
    split at hn
    · rename_i hx
      obtain rfl := Option.some.inj hn
      exact h.del hi hl (.inl ⟨hx, rfl⟩)
    · rename_i x hx
      obtain rfl := Option.some.inj hn
      exact h.del hi hl (.inr ⟨by rw [hx]; simp, rfl⟩)
  | delNew op ls e =>
    rw [hl] at hn
    dsimp only at hn
    split at hn
    · cases hn
    · rename_i x hx
      obtain rfl := Option.some.inj hn
      exact h.delNew hi hl hx
  | add op ls =>
    rw [hl] at hn
    cases hn
  | addNew op ls e =>
    rw [hl] at hn
    dsimp only at hn
    split at hn
    · cases hn
    · rename_i x hx
      obtain rfl := Option.some.inj hn
      exact h.addNew hi hl hx
  | unlockOld ls =>
    rw [hl] at hn hlt
    obtain rfl := Option.some.inj hn
    obtain ⟨hlock, hne⟩ := hlt
    have hd := h.dropped (x := ls.hbp0) (w := none) fun hx => by
      have := h.lock _ hx
      rw [hlock] at this
      cases this
    split
    · exact h.walk hi (by rw [hl]; rfl) (by rw [hl]; rfl) hd trivial
    · rename_i x hx
      exact h.walk hi (by rw [hl]; rfl) (by rw [hl]; rfl) hd (hne x hx)
  | unlockNew x =>
    rw [hl] at hn hlt
    obtain rfl := Option.some.inj hn
    exact h.walk hi (by rw [hl]; rfl) (by rw [hl]; rfl)
      (h.dropped fun hx => hlt (h.bucketLock_cur hx)) trivial
  | modUnlock =>
    rw [hl] at hn
    obtain rfl := Option.some.inj hn
    exact h.walk hi (by rw [hl]; rfl) (by rw [hl]; rfl) h.lock trivial

/-! ### The steps of the resizer -/

omit [DecidableEq K] in
/-- **A step of the resizer** keeps the invariant, if no section runs. -/
theorem inv_stepResizer (h : Inv s.toCore s.abs D) (hi : ∀ u, (s.loc u).isIdle = true)
    (hn : stepResizer s = some s') : ∃ D', Inv s'.toCore s'.abs D' := by
  have hd := h.done
  unfold stepResizer at hn
  cases hr : s.res with
  | idle =>
    rw [hr] at hn
    cases hn
  | publish g g' =>
    rw [hr] at hn
    obtain rfl := Option.some.inj hn
    exact ⟨D, h.publish hi hr⟩
  | sync g g' =>
    rw [hr] at hn hd
    obtain rfl := Option.some.inj hn
    exact ⟨D, h.resWalk hi (by rw [hr]; rfl) (by rw [hr]; rfl) hd (fun _ hx => nomatch hx)
      fun _ hx => nomatch hx⟩
  | wait g g' =>
    rw [hr] at hn hd
    dsimp only at hn
    split at hn
    · obtain rfl := Option.some.inj hn
      exact ⟨D, h.resWalk hi (by rw [hr]; rfl) (by rw [hr]; rfl) ⟨hd.1, hd.2⟩ (fun _ hx => nomatch hx)
        fun _ hx => nomatch hx⟩
    · cases hn
  | bucket g g' i =>
    rw [hr] at hn hd
    dsimp only at hn
    split at hn
    · split at hn
      · obtain rfl := Option.some.inj hn
        refine ⟨D, h.resWalk hi (by rw [hr]; rfl) (by rw [hr]; rfl) hd (fun x hx => ?_)
          fun _ hx => nomatch hx⟩
        obtain rfl := Option.some.inj hx
        exact Function.update_self ..
      · cases hn
    · rename_i hge
      obtain rfl := Option.some.inj hn
      refine ⟨D, h.resWalk hi (by rw [hr]; rfl) (by rw [hr]; rfl) ⟨hd.1, ?_⟩ (fun _ hx => nomatch hx)
        fun _ hx => nomatch hx⟩
      have hrc : (s.tab g).resizeCur = (i : ℤ) - 1 := hd.2
      rw [hrc]
      omega
  | first g g' i =>
    rw [hr] at hn hd
    obtain rfl := Option.some.inj hn
    obtain ⟨rfl, hrc⟩ := hd
    obtain rfl := (h.built g g' (by rw [hr]; rfl)).cur
    exact ⟨[], h.resWalk hi (by rw [hr]; rfl) (by rw [hr]; rfl)
      ⟨hrc, live s.toHeap (s.cur, i), rfl, (h.cur.ring i).next_head⟩
      (fun x hx => h.lock x (by rw [hr]; exact hx))
      fun _ hx => nomatch hx⟩
  | walk g g' i x =>
    rw [hr] at hn hd
    obtain ⟨hrc, post, hl, hx⟩ := hd
    cases x with
    | head g₁ b₁ =>
      dsimp only at hn
      split at hn
      · obtain rfl := Option.some.inj hn
        cases post with
        | nil =>
          rw [List.append_nil] at hl
          exact ⟨D, h.resWalk hi (by rw [hr]; rfl) (by rw [hr]; rfl) ⟨hrc, hl.symm⟩
            (fun x hx => h.lock x (by rw [hr]; exact hx))
            fun _ hx => nomatch hx⟩
        | cons e post => cases hx
      · cases hn
    | link e j =>
      dsimp only at hn
      split at hn
      · obtain rfl := Option.some.inj hn
        cases post with
        | nil => cases hx
        | cons e' post =>
          obtain ⟨rfl, -⟩ := Cell.link.inj hx
          exact ⟨D, h.resWalk hi (by rw [hr]; rfl) (by rw [hr]; rfl) ⟨hrc, rfl, post, hl⟩
            (fun x hx => h.lock x (by rw [hr]; exact hx))
            fun _ hx => nomatch hx⟩
      · cases hn
  | newBucket g g' i e b' =>
    rw [hr] at hn hd
    dsimp only at hn
    split at hn
    · rename_i hfree
      obtain rfl := Option.some.inj hn
      exact ⟨D, h.resWalk hi (by rw [hr]; rfl) (by rw [hr]; rfl) hd
        (fun x hx => h.taken hfree x (by rw [hr]; exact hx))
        fun _ hx => nomatch hx⟩
    · cases hn
  | link g g' i e b' =>
    rw [hr] at hn
    obtain rfl := Option.some.inj hn
    exact ⟨D ++ [e], h.moveElem hi hr⟩
  | newUnlock g g' i e b' =>
    rw [hr] at hn hd
    obtain rfl := Option.some.inj hn
    have hne : s.res.bucketLock ≠ some (g', b') := fun hx =>
      (h.built g g' (by rw [hr]; rfl)).ne (h.bucketLock_cur hx)
    exact ⟨D, h.resWalk hi (by rw [hr]; rfl) (by rw [hr]; rfl) hd
      (fun x hx => h.dropped hne x (by rw [hr]; exact hx))
      fun _ hx => nomatch hx⟩
  | nextElem g g' i e =>
    rw [hr] at hn hd
    obtain rfl := Option.some.inj hn
    obtain ⟨hrc, pre, post, rfl, hl⟩ := hd
    obtain rfl := (h.built g g' (by rw [hr]; rfl)).cur
    have hring := h.cur.ring i
    rw [hl] at hring
    exact ⟨_, h.resWalk hi (by rw [hr]; rfl) (by rw [hr]; rfl)
      ⟨hrc, post, by rw [List.append_assoc]; exact hl, hring.next_mem⟩
      (fun x hx => h.lock x (by rw [hr]; exact hx))
      fun _ hx => nomatch hx⟩
  | setCur g g' i =>
    rw [hr] at hn
    obtain rfl := Option.some.inj hn
    exact ⟨[], h.setCur hi hr⟩
  | unlock g g' i =>
    rw [hr] at hn hd
    obtain ⟨-, hn⟩ := Option.ite_none_right_eq_some.mp hn
    obtain rfl := Option.some.inj hn
    refine ⟨D, h.resWalk hi (by rw [hr]; rfl) (by rw [hr]; rfl) ⟨hd.1, ?_⟩ (fun _ hx => nomatch hx)
      fun _ hx => nomatch hx⟩
    have hrc : (s.tab g).resizeCur = i := hd.2
    rw [hrc]
    omega
  | switch g g' =>
    rw [hr] at hn
    obtain rfl := Option.some.inj hn
    exact ⟨[], h.switch hi hr⟩
  | sync2 g g' =>
    rw [hr] at hn hd
    obtain rfl := Option.some.inj hn
    refine ⟨D, h.resWalk hi (by rw [hr]; rfl) (by rw [hr]; rfl) hd (fun _ hx => nomatch hx)
      fun _ hx => h.switched _ (by rw [hr]; exact hx)⟩
  | wait2 g g' =>
    rw [hr] at hn hd
    dsimp only at hn
    split at hn
    · obtain rfl := Option.some.inj hn
      refine ⟨D, h.resWalk hi (by rw [hr]; rfl) (by rw [hr]; rfl) hd (fun _ hx => nomatch hx)
        fun _ hx => h.switched _ (by rw [hr]; exact hx)⟩
    · cases hn
  | free g g' =>
    rw [hr] at hn hd
    obtain rfl := Option.some.inj hn
    exact ⟨D, h.resWalk hi (by rw [hr]; rfl) (by rw [hr]; rfl) hd (fun _ hx => nomatch hx)
      fun _ hx => nomatch hx⟩

/-! ### Runs -/

/-- **A step keeps the invariant.** -/
theorem inv_next {a : Act n E K} (h : Inv s.toCore s.abs D) (hok : Whole a s)
    (hn : next a s = some s') : ∃ D', Inv s'.toCore s'.abs D' := by
  obtain ⟨s₁, ha, rfl⟩ := Option.map_eq_some_iff.mp hn
  show ∃ D', Inv s₁.toCore s₁.abs D'
  cases a with
  | lookup t k =>
    simp only [act] at ha
    split at ha
    · rename_i hl
      obtain rfl := Option.some.inj ha
      exact ⟨D, h.walk hok (by rw [hl]; rfl) (by rw [hl]; rfl) h.lock trivial⟩
    · cases ha
  | update t op =>
    simp only [act] at ha
    split at ha
    · rename_i hl
      obtain rfl := Option.some.inj ha
      exact ⟨D, h.walk hok (by rw [hl]; rfl) (by rw [hl]; rfl) h.lock trivial⟩
    · cases ha
  | step t => exact ⟨D, inv_stepThread h hok ha⟩
  | add t e =>
    simp only [act, addElem] at ha
    split at ha
    · rename_i op ls hl
      split at ha
      · rename_i he
        obtain rfl := Option.some.inj ha
        refine ⟨D, h.addFirst hok hl he.1 he.2 ?_⟩
        cases hx : ls.hbp1 with
        | none => exact .inl ⟨rfl, rfl⟩
        | some x => exact .inr ⟨by simp, rfl⟩
      · cases ha
    · cases ha
  | resize nbuckets gethash mem =>
    simp only [act] at ha
    split at ha
    · rename_i hr
      split at ha
      · rename_i hpos
        split at ha
        · obtain rfl := Option.some.inj ha
          exact ⟨[], h.alloc hok hr hpos.1⟩
        · obtain rfl := Option.some.inj ha
          exact ⟨D, h⟩
      · cases ha
    · cases ha
  | resizer => exact inv_stepResizer h hok ha
  | reclaim e =>
    simp only [act] at ha
    split at ha
    · obtain rfl := Option.some.inj ha
      exact ⟨D, h⟩
    · cases ha

omit [DecidableEq E] [DecidableEq K] in
theorem inv_init (h : Init s) : Inv s.toCore s.abs [] := by
  have hi : ∀ u, (s.loc u).isIdle = true := fun u => by rw [h.loc u]; rfl
  have hlive : ∀ b, live s.toHeap (s.cur, b) = s.hist (s.cur, b) := fun b =>
    List.filter_eq_self.mpr fun e _ => by rw [h.out]; rfl
  exact
    { cur := by
        constructor
        · intro b
          rw [hlive]
          exact h.ring b
        · intro b e
          rw [hlive]
          constructor
          · intro he
            obtain ⟨hb, -⟩ := h.place b e he
            exact ⟨hb, (h.abs e).mpr (hb ▸ he)⟩
          · rintro ⟨rfl, he⟩
            exact (h.abs e).mp he
      pos := h.cur.2.1
      lt := h.cur.1
      pool := fun e he => (h.place _ e ((h.abs e).mp he)).2.1
      out := fun e he => by
        rw [h.out] at he
        cases he
      rest := fun _ => ⟨h.cur.2.2.2, h.cur.2.2.1⟩
      built := fun _ _ hb => by
        rw [h.res] at hb
        cases hb
      outNew := fun _ _ hb => by
        rw [h.res] at hb
        cases hb
      new := fun _ _ hb => by
        rw [h.res] at hb
        cases hb
      done := by
        rw [h.res]
        rfl
      lock := fun _ hx => by
        rw [h.res] at hx
        cases hx
      switched := fun _ hx => by
        rw [h.res] at hx
        cases hx
      loc := locInv_idle hi }

theorem reach_inv (h : (sys n E K).Reach Whole s) : ∃ D, Inv s.toCore s.abs D :=
  h.inv (I := fun s => ∃ D, Inv s.toCore s.abs D) (fun _ h0 => ⟨[], inv_init h0⟩)
    fun _ _ _ ⟨_, hD⟩ hok hn => inv_next hD hok hn

omit [DecidableEq E] [DecidableEq K] in
/-- Between two buckets nothing is moved that `ht_resize_cur` does not tell of. -/
theorem Inv.between (h : Inv s.toCore s.abs D) (hb : s.res.between = true) : D = [] := by
  have hd := h.done
  cases hr : s.res <;> rw [hr] at hb hd <;> first | exact hd | exact hd.1 | cases hb

omit [DecidableEq E] in
theorem Inv.contents (h : Inv s.toCore s.abs D) (hi : ∀ t, (s.loc t).isIdle = true) : Contents s := by
  have hcur : ∀ b, s.elems (s.cur, b) = live s.toHeap (s.cur, b) := h.cur.elems h.pool
  have hnew : ∀ g', (s.tab s.cur).new = some g' → Has s.toHeap g' (inNew s.toCore s.abs D) ∧
      ∀ b, s.elems (g', b) = live s.toHeap (g', b) := by
    intro g' hg
    obtain ⟨g, hb⟩ := h.building hg
    exact ⟨h.new g g' hb, (h.new g g' hb).elems fun e he => h.pool e ((inNew_idle hi).mp he).1⟩
  exact
    { cur := fun b e => by rw [hcur, h.cur.mem]
      nodup := fun b => by
        rw [hcur]
        exact (h.cur.ring b).nodup
      new := fun hb g' hg b e => by
        obtain ⟨hs, hel⟩ := hnew g' hg
        rw [hel, hs.mem, inNew_idle hi, h.between hb]
        simp only [List.not_mem_nil, or_false]
      moved := fun g' hg e he hle => by
        obtain ⟨hs, hel⟩ := hnew g' hg
        rw [hel, hs.mem, inNew_idle hi]
        exact ⟨rfl, he, .inl hle⟩
      newNodup := fun g' hg b => by
        obtain ⟨hs, hel⟩ := hnew g' hg
        rw [hel]
        exact (hs.ring b).nodup
      found := fun k => by
        cases hf : s.lookup k with
        | some e =>
          have hk := List.find?_some hf
          have hm := List.mem_of_find?_eq_some hf
          rw [hcur, h.cur.mem] at hm
          exact ⟨of_decide_eq_true hk, hm.2⟩
        | none =>
          rintro e he rfl
          have hm : e ∈ s.elems (s.cur, s.bucket s.cur (s.key e)) := by
            rw [hcur, h.cur.mem]
            exact ⟨rfl, he⟩
          exact List.find?_eq_none.mp hf e hm (decide_eq_true rfl)
      returned := fun g g' hr => h.switched g' (by rw [hr]; rfl) }

/-- What the sections that run have seen. -/
structure Seen (s : St n E K) : Prop where
  /-- a lookup that is through has the element of its key, if there is one -/
  read : ∀ t k x, s.loc t = .readUnlock k x → Found s.toCore s.abs k x
  /-- so has one of an update section that goes on to `hashtab_del` -/
  hit : ∀ t op ls e, s.loc t = .del op ls e → Found s.toCore s.abs op.key (some e)
  /-- and one that is back at the head -/
  miss : ∀ t op ls g b g' b', s.loc t = .lookWalk op ls g b (.head g' b') →
    Found s.toCore s.abs op.key none
  /-- `ht_new` is not `NULL` when it is read -/
  new : ∀ t op g b, s.loc t = .modNew op g b → (s.tab g).new ≠ none

omit [DecidableEq E] [DecidableEq K] in
theorem Inv.seen (h : Inv s.toCore s.abs D) : Seen s where
  read t k x hl := by
    have hlt := h.loc t
    rwa [hl] at hlt
  hit t op ls e hl := by
    have hlt := h.loc t
    rw [hl] at hlt
    exact hlt.2
  miss t op ls g b g' b' hl := by
    have hlt := h.loc t
    rw [hl] at hlt
    exact hlt.2.missed h
  new t op g b hl hn := by
    have hlt := h.loc t
    rw [hl] at hlt
    obtain ⟨⟨rfl, -⟩, -, hle⟩ := hlt
    have hrc : (s.tab s.cur).resizeCur = -1 := by
      cases hb : s.res.building with
      | none => exact (h.rest hb).2
      | some x =>
        have hp := (h.built _ _ hb).published
        cases hr : s.res <;> rw [hr, hn] at hp <;> cases hp
        rename_i g₁ g₂
        have hd := h.done
        rw [hr] at hd
        rw [← (h.built g₁ g₂ (by rw [hr]; rfl)).cur]
        exact hd.2
    omega

/-! ### The bucket counts and `int` -/

/-- `i++` overflows, in `ht_alloc` or in `hashtab_resize`. -/
def Overflows : Act n E K → St n E K → Bool
  | .resize nbuckets _ mem, s =>
    match s.res with
    | .idle => mem && decide (INT_MAX < nbuckets)
    | _ => false
  | .resizer, s =>
    match s.res with
    | .unlock _ _ i => decide (INT_MAX ≤ i)
    | _ => false
  | _, _ => false

/-- The runs of the code, with `none` after an overflow. -/
def intSys (n : ℕ) (E K : Type) [DecidableEq E] [DecidableEq K] :
    Sys (Option (St n E K)) (Act n E K) where
  init o := ∃ s, o = some s ∧ Init s
  next a o := o.bind fun s => if Overflows a s then some none else (next a s).map some

/-- Update sections run whole. -/
def WholeIn (a : Act n E K) (o : Option (St n E K)) : Prop := ∀ s ∈ o, Whole a s

/-- `ht_alloc` has memory for at most `INT_MAX` buckets. -/
def Bounded : Act n E K → Prop
  | .resize nbuckets _ mem => mem = true → nbuckets ≤ INT_MAX
  | _ => True

/-- The tables in use have at most `INT_MAX` buckets, and the one that the
resizer is at is one of them. -/
structure Counts (s : St n E K) : Prop where
  cur : (s.tab s.cur).nbuckets ≤ INT_MAX
  building : ∀ g g', s.res.building = some (g, g') →
    (s.tab g).nbuckets ≤ INT_MAX ∧ (s.tab g').nbuckets ≤ INT_MAX
  index : ∀ x, s.res.bucketLock = some x → x.2 < (s.tab x.1).nbuckets

omit [DecidableEq E] [DecidableEq K] in
/-- What changes no bucket count. -/
theorem Counts.of (h : Counts s) (hnb : ∀ g, (s'.tab g).nbuckets = (s.tab g).nbuckets)
    (hcur : s'.cur = s.cur)
    (hb : ∀ x, s'.res.building = some x → s.res.building = some x)
    (hi : ∀ x, s'.res.bucketLock = some x → s.res.bucketLock = some x ∨ x.2 < (s.tab x.1).nbuckets) :
    Counts s' where
  cur := by
    rw [hcur, hnb]
    exact h.cur
  building g g' hg := by
    rw [hnb, hnb]
    exact h.building g g' (hb _ hg)
  index x hx := by
    rw [hnb]
    exact (hi x hx).elim (h.index x) id

omit [DecidableEq E] [DecidableEq K] in
/-- A new table has as many buckets as `ht_alloc` could count. -/
theorem Counts.alloc (h : Counts s) {nbuckets : ℕ} (gethash : Option (K → ℕ)) (hlt : s.cur < s.tables)
    (hle : nbuckets ≤ INT_MAX) :
    Counts ((Hash.alloc nbuckets gethash s).resGoto (.publish s.cur s.tables)).observe := by
  have hold : ((Hash.alloc nbuckets gethash s).tab s.cur).nbuckets ≤ INT_MAX := by
    rw [show (Hash.alloc nbuckets gethash s).tab s.cur = s.tab s.cur from
      Function.update_of_ne (Nat.ne_of_lt hlt) _ _]
    exact h.cur
  have hnew : ((Hash.alloc nbuckets gethash s).tab s.tables).nbuckets ≤ INT_MAX := by
    rw [show (Hash.alloc nbuckets gethash s).tab s.tables = ⟨nbuckets,
      gethash.getD (s.tab s.cur).gethash, !(s.tab s.cur).idx, -1, none⟩ from Function.update_self ..]
    exact hle
  refine ⟨hold, fun g g' hg => ?_, fun _ hx => nomatch hx⟩
  obtain ⟨rfl, rfl⟩ := Prod.mk.inj (Option.some.inj hg)
  exact ⟨hold, hnew⟩

omit [DecidableEq E] [DecidableEq K] in
theorem setTab_nbuckets {g : ℕ} {T : Table K} {r : Res E}
    (hT : T.nbuckets = (s.tab g).nbuckets) (g₁ : ℕ) :
    (((s.setTab g T).resGoto r).tab g₁).nbuckets = (s.tab g₁).nbuckets := by
  unfold St.resGoto St.setTab
  by_cases hg : g₁ = g
  · subst hg
    simp [hT]
  · simp [hg]

omit [DecidableEq K] in
theorem counts_stepResizer (h : Counts s) (hn : stepResizer s = some s') : Counts s' := by
  unfold stepResizer at hn
  cases hr : s.res with
  | idle =>
    rw [hr] at hn
    cases hn
  | publish g g' | setCur g g' i =>
    rw [hr] at hn
    obtain rfl := Option.some.inj hn
    refine h.of (fun g₁ => ?_) rfl (fun x hx => by rw [hr]; exact hx) fun x hx => .inl (by rw [hr]; exact hx)
    exact setTab_nbuckets (by rfl) g₁
  | bucket g g' i =>
    rw [hr] at hn
    dsimp only at hn
    split at hn
    · rename_i hlt
      split at hn
      · obtain rfl := Option.some.inj hn
        refine h.of (fun _ => rfl) rfl (fun x hx => by rw [hr]; exact hx) fun x hx => .inr ?_
        obtain rfl := Option.some.inj hx
        exact hlt
      · cases hn
    · obtain rfl := Option.some.inj hn
      exact h.of (fun _ => rfl) rfl (fun x hx => by rw [hr]; exact hx) fun _ hx => nomatch hx
  | unlock g g' i =>
    rw [hr] at hn
    obtain ⟨-, hn⟩ := Option.ite_none_right_eq_some.mp hn
    obtain rfl := Option.some.inj hn
    exact h.of (fun _ => rfl) rfl (fun x hx => by rw [hr]; exact hx) fun _ hx => nomatch hx
  | switch g g' =>
    rw [hr] at hn
    obtain rfl := Option.some.inj hn
    exact ⟨(h.building g g' (by rw [hr]; rfl)).2, fun _ _ hx => (nomatch hx), fun _ hx => nomatch hx⟩
  | wait g g' | wait2 g g' | walk g g' i c | newBucket g g' i e b' =>
    rw [hr] at hn
    dsimp only at hn
    repeat' split at hn
    all_goals
      cases hn
      try exact h.of (fun _ => rfl) rfl (fun x hx => by rw [hr]; exact hx) fun x hx => .inl (by rw [hr]; exact hx)
  | _ =>
    rw [hr] at hn
    obtain rfl := Option.some.inj hn
    exact h.of (fun _ => rfl) rfl (fun x hx => by rw [hr]; exact hx) fun x hx => .inl (by rw [hr]; exact hx)

theorem stepThread_tables (hn : stepThread t s = some s') :
    s'.tab = s.tab ∧ s'.cur = s.cur ∧ s'.res = s.res := by
  unfold stepThread at hn
  repeat' split at hn
  all_goals
    cases hn
    try exact ⟨rfl, rfl, rfl⟩

theorem counts_next {a : Act n E K} (h : Counts s) (hlt : s.cur < s.tables)
    (hn : next a s = some s') : Counts s' := by
  obtain ⟨s₁, ha, rfl⟩ := Option.map_eq_some_iff.mp hn
  -- what leaves the tables and the resizer alone
  have keep : ∀ s₁ : St n E K, s₁.tab = s.tab → s₁.cur = s.cur → s₁.res = s.res → Counts s₁.observe :=
    fun s₁ ht hc hr => h.of (fun g => congrArg (fun T => (T g).nbuckets) ht) hc
      (fun x hx => hr ▸ hx) fun x hx => .inl (hr ▸ hx)
  cases a with
  | step t =>
    obtain ⟨ht, hc, hr⟩ := stepThread_tables ha
    exact keep _ ht hc hr
  | resizer => exact (counts_stepResizer h ha).of (fun _ => rfl) rfl (fun _ => id) fun _ => .inl
  | resize nbuckets gethash mem =>
    simp only [act] at ha
    split at ha
    · split at ha
      · rename_i hr hpos
        split at ha
        · rename_i hmem
          obtain rfl := Option.some.inj ha
          exact h.alloc gethash hlt (hpos.2 hmem)
        · obtain rfl := Option.some.inj ha
          exact keep _ rfl rfl rfl
      · cases ha
    · cases ha
  | _ =>
    simp only [act, addElem] at ha
    repeat' split at ha
    all_goals
      cases ha
      try exact keep _ rfl rfl rfl

omit [DecidableEq E] [DecidableEq K] in
/-- No `i++` overflows. -/
theorem Counts.not_overflows {a : Act n E K} (h : Counts s) (ha : Bounded a) : Overflows a s = false := by
  cases a with
  | resize nbuckets gethash mem =>
    simp only [Overflows]
    split
    · cases mem with
      | false => rfl
      | true => exact decide_eq_false (Nat.not_lt.mpr (ha rfl))
    · rfl
  | resizer =>
    simp only [Overflows]
    split
    · rename_i g g' i hr
      have hi : i < (s.tab g).nbuckets := h.index (g, i) (by rw [hr]; rfl)
      have hg := (h.building g g' (by rw [hr]; rfl)).1
      exact decide_eq_false (by omega)
    · rfl
  | _ => rfl

theorem reach_counts {o : Option (St n E K)}
    (h : (intSys n E K).Reach (fun a o => WholeIn a o ∧ Bounded a) o) :
    ∃ s, o = some s ∧ (sys n E K).Reach Whole s ∧ Counts s := by
  refine h.inv (I := fun o => ∃ s, o = some s ∧ (sys n E K).Reach Whole s ∧ Counts s) ?_ ?_
  · rintro o ⟨s, rfl, h0⟩
    refine ⟨s, rfl, .init h0, h0.count, fun g g' hg => ?_, fun x hx => ?_⟩
    · rw [h0.res] at hg
      cases hg
    · rw [h0.res] at hx
      cases hx
  · rintro a o o' ⟨s, rfl, hr, hc⟩ ⟨hw, hb⟩ hn
    have hn : (if Overflows a s then some none else (next a s).map some) = some o' := hn
    rw [hc.not_overflows hb, if_neg Bool.false_ne_true] at hn
    obtain ⟨s', hs, rfl⟩ := Option.map_eq_some_iff.mp hn
    obtain ⟨D, hD⟩ := reach_inv hr
    exact ⟨s', rfl, .step a hr (hw s rfl) hs, counts_next hc hD.lt hs⟩

/-- **The resizable hash table preserves its contents.** -/
theorem resize_contents {o : Option (St n E K)}
    (h : (intSys n E K).Reach (fun a o => WholeIn a o ∧ Bounded a) o) :
    ∃ s, o = some s ∧ ((∀ t, (s.loc t).isIdle = true) → Contents s) ∧ Seen s := by
  obtain ⟨s, ho, hr, -⟩ := reach_counts h
  obtain ⟨D, hD⟩ := reach_inv hr
  exact ⟨s, ho, hD.contents, hD.seen⟩

instance : ∀ (a : Act n E K) (s : St n E K), Decidable (Whole a s)
  | .lookup t _, s | .update t _, s | .step t, s | .add t _, s =>
    inferInstanceAs (Decidable (∀ u, u ≠ t → (s.loc u).isIdle = true))
  | .resize _ _ _, s | .resizer, s => inferInstanceAs (Decidable (∀ u, (s.loc u).isIdle = true))
  | .reclaim _, _ => .isTrue trivial

instance : ∀ (a : Act n E K) (o : Option (St n E K)), Decidable (WholeIn a o)
  | _, none => .isTrue nofun
  | a, some s => decidable_of_iff (Whole a s) ⟨fun h _ hs => Option.some.inj hs ▸ h, fun h => h s rfl⟩

instance : ∀ a : Act n E K, Decidable (Bounded a)
  | .resize nbuckets _ mem => inferInstanceAs (Decidable (mem = true → nbuckets ≤ INT_MAX))
  | .lookup _ _ | .update _ _ | .step _ | .add _ _ | .resizer | .reclaim _ => .isTrue trivial

/-- A table of one bucket, for two threads, before anything is added. -/
def start : St 2 ℕ ℕ where
  links := ⟨id, id⟩
  key := id
  tab _ := ⟨1, id, false, -1, none⟩
  tables := 1
  cur := 0
  pool := []
  hist _ := []
  out _ _ := false
  home _ _ := 0
  lock _ := none
  loc _ := .idle
  res := .idle
  gp _ := false
  dead _ := false
  freedTable _ := false
  freed _ := false
  wait _ _ := false
  resRet := none
  abs _ := false
  was _ _ := false
  stay _ _ := false
  took _ := 0
  bound _ := 0

theorem start_init : Init start where
  ring _ := by
    refine ⟨List.nodup_nil, fun l₁ l₂ hl => ?_⟩
    obtain ⟨rfl, rfl⟩ := List.append_eq_nil_iff.mp hl.symm
    exact ⟨rfl, rfl⟩
  place _ _ he := nomatch he
  keys _ _ he := nomatch he
  out _ := rfl
  abs _ := ⟨fun h => (nomatch h), fun h => (nomatch h)⟩
  cur := by decide
  count := by decide
  lock _ := rfl
  loc _ := rfl
  res := rfl
  gp _ := rfl
  dead _ := rfl
  freed _ := rfl
  freedTable := ⟨rfl, fun _ _ => rfl⟩

theorem start_intSys : (intSys 2 ℕ ℕ).init (some start) := ⟨start, rfl, start_init⟩

/-- `hashtab_add` of `e` while `ht_resize_cur` is -1, by thread `t`. -/
def addSection (t : Fin 2) (e : ℕ) : List (Act 2 ℕ ℕ) :=
  .update t ⟨e, false, true⟩ :: List.replicate 4 (.step t) ++ .add t e :: List.replicate 2 (.step t)

/-- One element is added before a resize and one while it waits; the second one
is deleted when the only bucket has been moved. -/
def resizeTwo : List (Act 2 ℕ ℕ) :=
  addSection 0 5 ++ .resize 2 none true :: List.replicate 3 .resizer ++ addSection 1 6 ++
    List.replicate 15 .resizer ++ .update 0 ⟨6, true, false⟩ :: List.replicate 14 (.step 0) ++
    List.replicate 5 .resizer

theorem resize_contents_two : ∃ o, (intSys 2 ℕ ℕ).Reach (fun a o => WholeIn a o ∧ Bounded a) o ∧
    o.map (fun s => (s.resRet, s.elems (s.cur, 0), s.elems (s.cur, 1))) = some (some 0, [], [5]) ∧
    ∃ s, o = some s ∧ ((∀ t, (s.loc t).isIdle = true) → Contents s) ∧ Seen s := by
  have hrun : ((intSys 2 ℕ ℕ).run (fun a o => WholeIn a o ∧ Bounded a) resizeTwo (some start)).map
      (fun o => o.map fun s => (s.resRet, s.elems (s.cur, 0), s.elems (s.cur, 1))) =
        some (some (some 0, [], [5])) := by
    decide +kernel
  obtain ⟨o, ho, hd⟩ := Option.map_eq_some_iff.mp hrun
  have hr := Sys.run_reach (.init start_intSys) ho
  exact ⟨o, hr, hd, resize_contents hr⟩

/-- A table of one bucket is resized to 2 ^ 31: the loop of `ht_alloc` overflows. -/
theorem resize_overflows : ¬ ∀ o, (intSys 2 ℕ ℕ).Reach WholeIn o →
    ∃ s, o = some s ∧ ((∀ t, (s.loc t).isIdle = true) → Contents s) ∧ Seen s := by
  intro h
  have hrun : ((intSys 2 ℕ ℕ).run WholeIn [.resize 2147483648 none true] (some start)).map Option.isNone =
      some true := by
    decide +kernel
  obtain ⟨o, ho, hd⟩ := Option.map_eq_some_iff.mp hrun
  obtain ⟨s, rfl, -⟩ := h o (Sys.run_reach (.init start_intSys) ho)
  cases hd

end Hash
end Perfbook
