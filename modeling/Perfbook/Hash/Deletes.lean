/-
# Which elements `hashtab_del` unlinks

`hashtab_lock_mod` locks a bucket of `ht_cur`, and `hashtab_lookup` reads
`ht_cur` again. A switch may fall between the two, and another section may add
an element to the new table only. Then the lookup finds an element that was
never in the table that was locked first, and `hashtab_del` unlinks it from
there (`stale_deletes`). If no section finds such an element, every deletion is
of a linked element, in any number of resizes, and a section that does find one
deletes what is not linked (`deletes_only`).

Key definitions: `WasLinked`, `Deletes`.
Key theorems: `inv_next`, `deletes_linked`, `deletes_only`.
-/
import Perfbook.Hash.ResizeSteps

namespace Perfbook
namespace Hash
namespace Updates

open Conc

variable {n : ℕ} {E K : Type}
variable {h h' : Heap E K} {g g' : ℕ} {M : E → Prop} {e a : E} {i : Bool} {x y : ℕ × ℕ}
variable {c c' : Core n E K} {D D' : List E} {t u : Fin n} {l : Loc E K} {op : Op K} {ls : LockState}

/-! ### Runs -/

section Runs

variable [DecidableEq E] {s s' : St n E K}

omit [DecidableEq E] in
/-- A resize begins: `ht_alloc`. -/
theorem Inv.alloc {nbuckets : ℕ} {gethash : Option (K → ℕ)} (I : Inv s.toCore D) (hr : s.res = .idle)
    (hn : 0 < nbuckets) :
    Inv ((Hash.alloc nbuckets gethash s).resGoto (.publish s.cur s.tables)).toCore [] := by
  have hne : s.cur ≠ s.tables := Nat.ne_of_lt I.lt
  obtain ⟨hnew, hrc⟩ := I.rest (by rw [hr]; rfl)
  have hused : ∀ {g}, Used s.toCore g → g = s.cur := by
    rintro g (hg | ⟨g₁, g₂, hp, -⟩)
    · exact hg
    · rw [hr] at hp
      cases hp
  have hsn : ∀ {g}, Snap s.toCore g → g = s.cur := fun hs => hused (Used.snap hs)
  set s' := (Hash.alloc nbuckets gethash s).resGoto (.publish s.cur s.tables) with hs'
  have htab : s'.tab s.cur = s.tab s.cur := Function.update_of_ne hne _ _
  have htab' : s'.tab s.tables = ⟨nbuckets, gethash.getD (s.tab s.cur).gethash, !(s.tab s.cur).idx, -1,
      none⟩ := Function.update_self ..
  have hhist : ∀ b, s'.hist (s.cur, b) = s.hist (s.cur, b) := fun b => if_neg hne
  have hhist' : ∀ b, s'.hist (s.tables, b) = [] := fun b => if_pos rfl
  have hout : s'.out s.cur = s.out s.cur := Function.update_of_ne hne _ _
  have hout' : s'.out s.tables = fun _ => false := Function.update_self ..
  have hlive : ∀ b, live s'.toHeap (s.cur, b) = live s.toHeap (s.cur, b) := fun b => by
    rw [live, live, hhist, hout]
  have hlive' : ∀ b, live s'.toHeap (s.tables, b) = [] := fun b => by
    rw [live, hhist']
    rfl
  have hbucket : ∀ k, s'.bucket s.cur k = s.bucket s.cur k := fun k => by
    rw [Heap.bucket, Heap.bucket, htab]
  have hm : ∀ {a}, Mem s'.toHeap s.cur a ↔ Mem s.toHeap s.cur a := by
    intro a
    unfold Mem
    rw [hbucket, hlive]
    exact Iff.rfl
  have hm' : ∀ {a}, ¬ Mem s'.toHeap s.tables a := fun h => by
    unfold Mem at h
    rw [hlive'] at h
    cases h
  have hdel : ∀ u e, deleting (s.loc u) ≠ some e := by
    intro u e hd
    have hat := I.loc u
    cases hl : s.loc u with
    | delNew op ls a =>
      rw [hl] at hat
      obtain ⟨H, -, -, -, x, hx, -⟩ := hat
      have := I.pair_new H.snap (H.both x hx).2.1
      rw [hr] at this
      cases this
    | _ =>
      rw [hl] at hd
      cases hd
  exact
    { pos := by
        show 0 < (s'.tab s.cur).nbuckets
        rw [htab]
        exact I.pos
      lt := Nat.lt_succ_of_lt I.lt
      listed := by
        have hcur : Listed s'.toHeap s.cur := by
          refine Has.congr (I.listed s.cur (.inl rfl)) (by rw [htab]) (fun e => hbucket _) hlive
            (fun b => ⟨if_neg hne, if_neg hne⟩) (fun _ _ => ⟨rfl, rfl⟩) fun a => hm
        rintro g (rfl | ⟨g₁, g₂, hp, hg⟩)
        · exact hcur
        · obtain ⟨rfl, rfl⟩ := Prod.mk.inj (Option.some.inj hp)
          obtain rfl | rfl := hg
          · exact hcur
          · constructor
            · intro b
              rw [hlive']
              constructor
              · exact List.nodup_nil
              · intro l₁ l₂ hl
                obtain ⟨rfl, rfl⟩ := List.append_eq_nil_iff.mp hl.symm
                exact ⟨if_pos rfl, if_pos rfl⟩
            · intro b e
              rw [hlive']
              exact iff_of_false List.not_mem_nil fun h => hm' h.2
      pool := by
        have hcur : ∀ e, Mem s'.toHeap s.cur e ∨ s'.out s.cur e = true → e ∈ s.pool := by
          intro e he
          rw [hm, hout] at he
          exact I.pool s.cur (.inl rfl) e he
        rintro g (rfl | ⟨g₁, g₂, hp, hg⟩) e he
        · exact hcur e he
        · obtain ⟨rfl, rfl⟩ := Prod.mk.inj (Option.some.inj hp)
          obtain rfl | rfl := hg
          · exact hcur e he
          · obtain he | he := he
            · exact absurd he hm'
            · rw [hout'] at he
              cases he
      rest := fun h => by cases h
      tables := fun g g' hp => by
        obtain ⟨rfl, rfl⟩ := Prod.mk.inj (Option.some.inj hp)
        refine ⟨rfl, hne.symm, ⟨Nat.lt_succ_of_lt I.lt, Nat.lt_succ_self _⟩, ⟨?_, ?_⟩, ?_, ?_, ?_, ?_,
          fun h => by cases h⟩
        · rw [htab]
          exact I.pos
        · rw [htab']
          exact hn
        · rw [htab', htab]
        · rw [htab']
        · rw [htab']
        · rw [htab, hnew]
          rfl
      new := fun g g' hp _ e => by
        obtain ⟨rfl, rfl⟩ := Prod.mk.inj (Option.some.inj hp)
        refine iff_of_false hm' ?_
        rintro (⟨-, hle | hx, -⟩ | ⟨u, hd⟩)
        · rw [show (s'.tab s'.cur).resizeCur = (s.tab s.cur).resizeCur from congrArg _ htab, hrc] at hle
          omega
        · cases hx
        · exact hdel u e hd
      outNew := fun g g' hp _ e he => by
        obtain ⟨rfl, rfl⟩ := Prod.mk.inj (Option.some.inj hp)
        rw [hout'] at he
        cases he
      outOld := fun g g' _ h => by cases h
      done := ⟨rfl, by rw [htab]; exact hrc⟩
      lock := fun b h => by cases h
      lockNew := fun b h => by cases h
      dead := fun e he => by
        obtain ⟨h1, h2, -⟩ := I.dead e he
        refine ⟨h1, fun h => h2 (hm.mp h), fun g g' hp _ => ?_⟩
        obtain ⟨rfl, rfl⟩ := Prod.mk.inj (Option.some.inj hp)
        exact hm'
      grace := trivial
      loc := fun u => At.frame I
        { key := rfl
          bucket := fun g hg k => by rw [hused hg]; exact hbucket k
          idx := fun g hg => by rw [hused hg, htab]
          snap := fun g _ hs => .inl (hsn hs)
          alone := fun k _ h => ⟨rfl, by rw [htab]; exact h⟩
          resizeCur := fun g hg => by rw [hused hg, htab]
          new := fun g x hg hx => by
            rw [hused hg] at hx ⊢
            rwa [htab]
          lock := fun _ => id
          live := fun x hx _ => by
            obtain ⟨g, b⟩ := x
            obtain rfl : g = s.cur := hused hx
            exact hlive b
          out := fun g e hg _ => by rw [hused hg, hout]
          dead := fun _ _ => rfl, pool := fun _ => id } rfl (I.loc u) }

variable [DecidableEq K]

/-- The element that the lookup of an update section is about to find, and the bucket that the
section has locked first. -/
def finding (key : E → K) : Loc E K → Option (E × (ℕ × ℕ))
  | .lookWalk op ls _ _ (.link e _) => if key e = op.key then some (e, ls.hbp0) else none
  | _ => none

/-- The element that an update section finds was linked into the bucket that it has locked first
at some time; it is not one that was added, since the switch, to the new table only. -/
def WasLinked (a : Act n E K) (s : St n E K) : Prop :=
  match a with
  | .step t => ∀ p ∈ finding s.key (s.loc t), p.1 ∈ s.hist p.2
  | _ => True

/-- **A step keeps the invariant.** -/
theorem inv_next {a : Act n E K} (I : Inv s.toCore D) (hok : WasLinked a s) (hn : next a s = some s') :
    ∃ D', Inv s'.toCore D' := by
  obtain ⟨s₁, ha, rfl⟩ := Option.map_eq_some_iff.mp hn
  show ∃ D', Inv s₁.toCore D'
  cases a with
  | lookup t k =>
    simp only [act] at ha
    split at ha
    · rename_i hl
      obtain rfl := Option.some.inj ha
      exact ⟨D, I.walk (by rw [hl]; rfl) (by rw [hl]; rfl) (fun _ _ h _ => h) (fun _ h => by cases h)
        (fun _ => .inl) trivial⟩
    · cases ha
  | update t op =>
    simp only [act] at ha
    split at ha
    · rename_i hl
      obtain rfl := Option.some.inj ha
      exact ⟨D, I.walk (by rw [hl]; rfl) (by rw [hl]; rfl) (fun _ _ h _ => h) (fun _ h => by cases h)
        (fun _ => .inl) trivial⟩
    · cases ha
  | step t =>
    refine ⟨D, inv_stepThread I (fun op ls g b e i hl hk => ?_) ha⟩
    exact hok (e, ls.hbp0) (by rw [hl]; exact if_pos hk)
  | add t e =>
    simp only [act, addElem] at ha
    split at ha
    · rename_i op ls hl
      split at ha
      · rename_i he
        obtain rfl := Option.some.inj ha
        cases hx : ls.hbp1 with
        | none => exact ⟨D, I.addFirst hl he.1 he.2 (.inl ⟨hx, rfl⟩)⟩
        | some x => exact ⟨D, I.addFirst hl he.1 he.2 (.inr ⟨by rw [hx]; simp, rfl⟩)⟩
      · cases ha
    · cases ha
  | resize nbuckets gethash mem =>
    simp only [act] at ha
    split at ha
    · rename_i hr
      split at ha
      · rename_i hpos
        split at ha
        · obtain rfl := Option.some.inj ha
          exact ⟨[], I.alloc hr hpos.1⟩
        · obtain rfl := Option.some.inj ha
          exact ⟨D, I⟩
      · cases ha
    · cases ha
  | resizer => exact inv_stepResizer I ha
  | reclaim e =>
    simp only [act] at ha
    split at ha
    · obtain rfl := Option.some.inj ha
      exact ⟨D, I⟩
    · cases ha

omit [DecidableEq E] [DecidableEq K] in
theorem inv_init (h : Init s) : Inv s.toCore [] := by
  have hlive : ∀ b, live s.toHeap (s.cur, b) = s.hist (s.cur, b) := fun b =>
    List.filter_eq_self.mpr fun e _ => by rw [h.out]; rfl
  have hused : ∀ {g}, Used s.toCore g → g = s.cur := by
    rintro g (hg | ⟨g₁, g₂, hp, -⟩)
    · exact hg
    · rw [h.res] at hp
      cases hp
  have hres : ∀ {p}, pair s.res ≠ some p := by
    intro p hp
    rw [h.res] at hp
    cases hp
  exact
    { pos := h.cur.2.1, lt := h.cur.1
      listed := fun g hg => by
        rw [hused hg]
        constructor
        · intro b
          rw [hlive]
          exact h.ring b
        · intro b e
          unfold Mem
          rw [hlive, hlive]
          refine ⟨fun he => ?_, fun ⟨hb, he⟩ => hb ▸ he⟩
          have hb := (h.place b e he).1
          exact ⟨hb, hb ▸ he⟩
      pool := fun g hg e he => by
        rw [hused hg] at he
        obtain he | he := he
        · unfold Mem at he
          rw [hlive] at he
          exact (h.place _ e he).2.1
        · rw [h.out] at he
          cases he
      rest := fun _ => ⟨h.cur.2.2.2, h.cur.2.2.1⟩
      tables := fun _ _ hp => absurd hp hres, new := fun _ _ hp => absurd hp hres
      outNew := fun _ _ hp => absurd hp hres, outOld := fun _ _ hp => absurd hp hres
      done := by rw [h.res]; exact rfl
      lock := fun x hx => by rw [h.res] at hx; cases hx
      lockNew := fun x hx => by rw [h.res] at hx; cases hx
      dead := fun e he => by rw [h.dead] at he; cases he
      grace := by unfold Grace; rw [h.res]; trivial
      loc := fun t => by rw [h.loc]; trivial }

theorem reach_inv (h : (sys n E K).Reach WasLinked s) : ∃ D, Inv s.toCore D :=
  h.inv (I := fun s => ∃ D, Inv s.toCore D) (fun _ h0 => ⟨[], inv_init h0⟩)
    fun _ _ _ ⟨_, hD⟩ hok hn => inv_next hD hok hn

/-! ### Deletions -/

/-- `cds_list_del_rcu` is about to unlink an element that is linked, by the link it uses, and an
element whose deletion is through is in neither table. -/
structure Deletes (s : St n E K) : Prop where
  first : ∀ t op ls e, s.loc t = .del op ls e →
    ls.idx0 = (s.tab ls.hbp0.1).idx ∧ e ∈ s.elems ls.hbp0
  second : ∀ t op ls e, s.loc t = .delNew op ls e →
    ∃ x, ls.hbp1 = some x ∧ (!ls.idx0) = (s.tab x.1).idx ∧ e ∈ s.elems x
  cur : ∀ e b, s.dead e = true → e ∉ s.elems (s.cur, b)
  new : ∀ e g' b, s.dead e = true → (s.tab s.cur).new = some g' → e ∉ s.elems (g', b)

omit [DecidableEq E] [DecidableEq K] in
theorem Inv.elems (I : Inv s.toCore D) {g : ℕ} (hg : Used s.toCore g) (b : ℕ) :
    s.elems (g, b) = live s.toHeap (g, b) :=
  Has.elems (I.listed g hg) (fun e he => I.pool g hg e (.inl he)) b

omit [DecidableEq E] [DecidableEq K] in
theorem Inv.deletes (I : Inv s.toCore D) : Deletes s where
  first t op ls e hl := by
    have hat := I.loc t
    rw [hl] at hat
    obtain ⟨H, hk, h0, -⟩ := hat
    refine ⟨H.idx0, ?_⟩
    rw [show ls.hbp0 = (ls.hbp0.1, s.bucket ls.hbp0.1 (s.key e)) from
      Prod.ext rfl (by rw [hk]; exact H.hbp0), I.elems (Used.snap H.snap)]
    exact h0
  second t op ls e hl := by
    have hat := I.loc t
    rw [hl] at hat
    obtain ⟨H, hk, -, -, x, hx, h1⟩ := hat
    obtain ⟨-, hnew, hx2, -⟩ := H.both x hx
    refine ⟨x, hx, ?_, ?_⟩
    · rw [H.idx0, (I.tables _ _ (I.pair_new H.snap hnew)).idx]
    · rw [show x = (x.1, s.bucket x.1 (s.key e)) from Prod.ext rfl (by rw [hk]; exact hx2),
        I.elems (Held.used I H hx)]
      exact h1
  cur e b hd he := by
    rw [I.elems (.inl rfl)] at he
    exact (I.dead e hd).2.1 ((I.listed _ (.inl rfl)).bucket he).2
  new e g' b hd hn he := by
    have hp := I.pair_new (.inl rfl) hn
    have hu : Used s.toCore g' := .inr ⟨_, _, hp, .inr rfl⟩
    rw [I.elems hu] at he
    have hlate : late s.res = false := by
      rw [← Bool.not_eq_true]
      intro hlate
      have P := I.tables _ _ hp
      have := P.cur
      rw [hlate] at this
      exact P.ne this.symm
    exact (I.dead e hd).2.2 _ _ hp hlate ((I.listed _ hu).bucket he).2

/-- **Deletions touch only linked elements** if every element that an update section finds was
linked into the bucket that it has locked first. -/
theorem deletes_linked (h : (sys n E K).Reach WasLinked s) : Deletes s := by
  obtain ⟨D, hD⟩ := reach_inv h
  exact hD.deletes

/-- The condition cannot be weakened: a section that finds another element goes on to delete it. -/
theorem deletes_only {a : Act n E K} (h : (sys n E K).Reach WasLinked s) (hn : next a s = some s')
    (hok : ¬ WasLinked a s) : ¬ Deletes s' := by
  obtain ⟨D, I⟩ := reach_inv h
  cases a with
  | step t =>
    simp only [WasLinked, not_forall] at hok
    obtain ⟨⟨e, x⟩, hp, hne⟩ := hok
    cases hl : s.loc t with
    | lookWalk op ls g b c =>
      cases c with
      | head g' b' =>
        rw [hl] at hp
        cases hp
      | link e' i =>
        rw [hl] at hp
        simp only [finding, Option.mem_def, Option.ite_none_right_eq_some] at hp
        obtain ⟨hk, hp⟩ := hp
        obtain ⟨rfl, rfl⟩ := Prod.mk.inj (Option.some.inj hp)
        simp only [next, act, stepThread, hl, if_pos hk] at hn
        split at hn
        · obtain rfl := Option.some.inj hn
          intro hd
          have hat := I.loc t
          rw [hl] at hat
          obtain ⟨-, he⟩ := hd.first t op ls e' (Function.update_self ..)
          refine hne ?_
          have he : e' ∈ s.elems ls.hbp0 := he
          rw [show ls.hbp0 = (ls.hbp0.1, ls.hbp0.2) from rfl, I.elems (Used.snap hat.1.snap)] at he
          exact (List.mem_filter.mp he).1
        · cases hn
    | _ =>
      rw [hl] at hp
      cases hp
  | _ => exact absurd trivial hok

end Runs

instance [DecidableEq E] [DecidableEq K] : ∀ (a : Act n E K) (s : St n E K), Decidable (WasLinked a s)
  | .step t, s => inferInstanceAs (Decidable (∀ p ∈ finding s.key (s.loc t), p.1 ∈ s.hist p.2))
  | .lookup _ _, _ | .update _ _, _ | .add _ _, _ | .resize _ _ _, _ | .resizer, _ | .reclaim _, _ =>
    .isTrue trivial

/-- A section looks up its key, and deletes what it finds or adds an element. -/
def Looks (a : Act n E K) (_ : St n E K) : Prop :=
  match a with
  | .update _ op => op.look = true ∧ op.add = true
  | .lookup _ _ => False
  | _ => True

instance : ∀ (a : Act n E K) (s : St n E K), Decidable (Looks a s)
  | .update _ op, _ => inferInstanceAs (Decidable (op.look = true ∧ op.add = true))
  | .lookup _ _, _ => .isFalse id
  | .step _, _ | .add _ _, _ | .resize _ _ _, _ | .resizer, _ | .reclaim _, _ => .isTrue trivial

/-- The section of thread 0 reads `ht_cur` before the switch, thread 1 adds an element after it,
and thread 0 finds that element. -/
def staleRun : List (Act 2 ℕ ℕ) :=
  .flatten [
    [.resize 1 none true], .replicate 3 .resizer,
    [.update 0 ⟨5, true, true⟩], .replicate 2 (.step 0), .replicate 7 .resizer,
    [.update 1 ⟨5, true, true⟩], .replicate 7 (.step 1), [.add 1 5], .replicate 2 (.step 1),
    .replicate 7 (.step 0)]

/-- **A deletion of an element that is not linked**: it is in the new table only, and the section
unlinks it from the old one. -/
theorem stale_deletes : ¬ ∀ s, (sys 2 ℕ ℕ).Reach Looks s → Deletes s := by
  intro h
  have hrun : ((sys 2 ℕ ℕ).run Looks staleRun start).map (fun s => (s.loc 0, s.elems (0, 0))) =
      some (.del ⟨5, true, true⟩ ⟨(0, 0), false, some (1, 0)⟩ 5, []) := by
    rfl
  obtain ⟨s, hs, hd⟩ := Option.map_eq_some_iff.mp hrun
  obtain ⟨hl, he⟩ := Prod.mk.inj hd
  have hm := ((h s (Sys.run_reach (.init start_init) hs)).first 0 _ _ 5 hl).2
  rw [he] at hm
  cases hm

/-- An element is added before a resize, and deleted by a section that has read `ht_cur` before the
switch and looks it up after. -/
def switchRun : List (Act 2 ℕ ℕ) :=
  .flatten [
    [.update 0 ⟨5, true, true⟩], .replicate 7 (.step 0), [.add 0 5], .replicate 2 (.step 0),
    [.resize 1 none true], .replicate 13 .resizer,
    [.update 1 ⟨5, true, true⟩], .replicate 6 (.step 1), .replicate 2 .resizer, .replicate 6 (.step 1)]

theorem deletes_linked_switch : ∃ s, (sys 2 ℕ ℕ).Reach WasLinked s ∧ s.cur = 1 ∧ s.dead 5 = true ∧
    Deletes s := by
  have hrun : ((sys 2 ℕ ℕ).run WasLinked switchRun start).map (fun s => (s.cur, s.dead 5)) =
      some (1, true) := by
    decide
  obtain ⟨s, hs, hd⟩ := Option.map_eq_some_iff.mp hrun
  obtain ⟨hc, hd⟩ := Prod.mk.inj hd
  have hreach := Sys.run_reach (.init start_init) hs
  exact ⟨s, hreach, hc, hd, deletes_linked hreach⟩

end Updates
end Hash
end Perfbook
