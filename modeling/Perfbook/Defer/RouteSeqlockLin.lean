/-
# The lookups of `route_seqlock.c` that return are right

A lookup takes effect when `read_seqretry` finds `seq` as it was, an update at its store in the
write section. So the calls are linearizable, whatever is written to entries that were freed
under the lookups. That the lookup touches them at all is not ruled out: it aborts when it finds
one marked as freed, and that only when an update was in progress when it read `seq` or has begun since.

Key theorems: `InvOf.lookup_step`, `InvOf.update_step`, `inv_next`, `seqlock_routes_linearizable`.
-/
import Perfbook.Defer.RouteSeqlockInv

namespace Perfbook
namespace RouteSeqlock

open Conc Routes

variable {n : ℕ} {m m' : Heap n} {s s' : St n} {k : ℕ} {q q' l₁ l₂ : List Cell} {t u : Fin n} {l : Loc} {addr : ℕ}
  {iface : ℤ} {rep repp c : Cell} {x o : Option Cell} {a : ℕ}

theorem store_next : (m.store rep x).next rep = x := Function.update_self ..

theorem store_next_ne (hc : c ≠ rep) : (m.store rep x).next c = m.next c := Function.update_of_ne hc ..

theorem Same.store (hc : c ≠ rep) : Same m (m.store rep x) c := ⟨store_next_ne hc, rfl, rfl, rfl⟩

theorem Same.setStatus {y : Status n} (hc : c ≠ rep) : Same m (m.setStatus rep y) c :=
  ⟨rfl, rfl, rfl, Function.update_of_ne hc ..⟩

theorem Same.trans {m'' : Heap n} (h : Same m m' c) (h' : Same m' m'' c) : Same m m'' c :=
  ⟨h'.next.trans h.next, h'.addr.trans h.addr, h'.iface.trans h.iface, h'.status.trans h.status⟩

theorem Same.fill {freed : Bool} (hc : c ≠ rep) : Same m (m.fill rep x addr iface freed) c :=
  ⟨Function.update_of_ne hc .., Function.update_of_ne hc .., Function.update_of_ne hc .., rfl⟩

/-- An entry with another address is passed. -/
theorem Passed.next (h : Passed m q addr l₁ (rep :: l₂)) (ha : m.addr rep ≠ addr) :
    ∃ l, Passed m q addr l l₂ ∧ rep = before .head l := by
  refine ⟨l₁ ++ [rep], ⟨by rw [h.1, List.append_assoc, List.singleton_append], fun c hc => ?_⟩,
    by rw [before_append, before_cons, before_nil]⟩
  rcases List.mem_append.mp hc with hc | hc
  · exact h.2 c hc
  · rw [List.mem_singleton.mp hc]
    exact ha

/-- An entry that is `y` becomes `z`: which ones are `x` stays. -/
theorem status_iff {x y z : Status n} (hc : m.status rep = y) (hy : y ≠ x) (hz : z ≠ x) (c : Cell) :
    Function.update m.status rep z c = x ↔ m.status c = x := by
  by_cases hcr : c = rep
  · rw [hcr, Function.update_self, hc]
    exact iff_of_false hz hy
  · rw [Function.update_of_ne hcr]

namespace InvOf

variable (h : InvOf s q)
include h

/-! ### Lookups -/

theorem next_passed (hp : Passed s.toHeap q addr l₁ l₂) : s.next (before .head l₁) = l₂.head? := by
  have hpath := h.path
  rw [hp.1] at hpath
  exact hpath.mid.head

/-- **What a lookup does.** -/
theorem lookup_step (hl : pend (s.loc t) = .called (.lookup addr)) (hn : stepThread t s = some s') : InvOf s' q := by
  have ht := h.loc t
  unfold stepThread at hn
  cases hx : s.loc t with
  | begin_ addr =>
    simp only [hx, Option.some.injEq] at hn
    subst hn
    exact h.goto (by rw [hx]; rfl) (by rw [hx]; rfl) nofun ⟨Nat.sub_le .., by omega, fun _ => ⟨[], q, ⟨rfl, nofun⟩, rfl⟩⟩
  | load addr k repp =>
    rw [hx] at ht
    obtain ⟨hle, heven, hp⟩ := ht
    simp only [hx] at hn
    cases hc : s.next repp with
    | none =>
      simp only [hc, Option.some.injEq] at hn
      subst hn
      refine h.goto (by rw [hx]; rfl) (by rw [hx]; rfl) nofun ⟨hle, heven, fun he => ?_⟩
      obtain ⟨l₁, l₂, hpass, rfl⟩ := hp he
      rw [h.next_passed hpass] at hc
      obtain rfl := List.head?_eq_none_iff.mp hc
      exact hpass.no_answer
    | some rep =>
      simp only [hc, Option.some.injEq] at hn
      subst hn
      refine h.goto (by rw [hx]; rfl) (by rw [hx]; rfl) nofun ⟨hle, heven, fun he => ?_⟩
      obtain ⟨l₁, l₂, hpass, rfl⟩ := hp he
      rw [h.next_passed hpass] at hc
      obtain ⟨l₂, rfl⟩ := List.head?_eq_some_iff.mp hc
      exact ⟨l₁, l₂, hpass⟩
  | readAddr addr k rep =>
    rw [hx] at ht
    obtain ⟨hle, heven, hp⟩ := ht
    simp only [hx, Option.some.injEq] at hn
    subst hn
    split
    · rename_i ha
      exact h.goto (by rw [hx]; rfl) (by rw [hx]; rfl) nofun ⟨hle, heven, fun he => ⟨hp he, ha⟩⟩
    · rename_i ha
      refine h.goto (by rw [hx]; rfl) (by rw [hx]; rfl) nofun ⟨hle, heven, fun he => ?_⟩
      obtain ⟨l₁, l₂, hp⟩ := hp he
      obtain ⟨l₁, hp⟩ := hp.next ha
      exact ⟨l₁, l₂, hp⟩
  | readFreed addr k rep =>
    rw [hx] at ht
    obtain ⟨hle, heven, hp⟩ := ht
    simp only [hx, Option.some.injEq] at hn
    subst hn
    split
    · rename_i hf
      refine h.goto (by rw [hx]; rfl) (by rw [hx]; rfl) nofun (Nat.lt_of_le_of_ne hle fun he => ?_)
      obtain ⟨⟨l₁, l₂, hp⟩, -⟩ := hp he.symm
      rw [h.freed rep (.inl ((h.table rep).mp hp.mem))] at hf
      cases hf
    · exact h.goto (by rw [hx]; rfl) (by rw [hx]; rfl) nofun ⟨hle, heven, hp⟩
  | readIface addr k rep =>
    rw [hx] at ht
    obtain ⟨hle, heven, hp⟩ := ht
    simp only [hx, Option.some.injEq] at hn
    subst hn
    refine h.goto (by rw [hx]; rfl) (by rw [hx]; rfl) nofun ⟨hle, heven, fun he => ?_⟩
    obtain ⟨⟨l₁, l₂, hp⟩, ha⟩ := hp he
    exact hp.answer ha
  | retry addr k ret =>
    rw [hx] at ht
    obtain ⟨-, -, hp⟩ := ht
    simp only [hx, Option.some.injEq] at hn
    subst hn
    split
    · exact h.goto (by rw [hx]; rfl) (by rw [hx]; rfl) nofun trivial
    · rename_i he
      obtain rfl := hp (not_not.mp he)
      exact h.decided (by rw [hx]; rfl) rfl rfl (by rw [hx]; rfl) nofun trivial
  | aborted addr k =>
    simp only [hx] at hn
    cases hn
  | lock k | lockRead k | lockStore k s =>
    rw [hx] at hl
    cases k <;> cases hl
  | _ =>
    rw [hx] at hl
    cases hl

theorem locked (ht : locks (s.loc t) = true) : s.lock ≠ none := by
  rw [(h.lock t).mpr ht]
  nofun

theorem not_locks (ht : locks (s.loc t) = true) (hu : u ≠ t) : locks (s.loc u) = false := by
  rw [← Bool.not_eq_true]
  exact fun hx => hu (h.lock.eq ht hx)

/-! ### Updates -/

/-- **The counter goes on**, and no lookup that runs can succeed. -/
theorem counts {b : ℕ} (ht : locks (s.loc t) = true) (hs : s.seq = b) (hp : pend l = pend (s.loc t))
    (hL : locks l = true) (hw : writes l = true → (b + 1) % 2 = 1) (hl : LocInv s.toHeap (b + 1) q t l) :
    InvOf ({ s with seq := b + 1 }.goto t l) q := by
  obtain ⟨S, hlin⟩ := h.lin
  refine h.of_step rfl h.path h.nodup h.table h.head h.freed (h.lock.stay rfl (hL.trans ht.symm))
    (fun hx => absurd hx (h.locked ht)) (.inr ht) hw (fun u hu => ⟨fun c _ => .refl _ c, .inr ⟨?_, h.not_locks ht hu, ?_⟩⟩)
    hl ⟨S, hlin.stay rfl hp⟩
  · show s.seq ≤ b + 1
    omega
  · show ∀ k, k % 2 = 0 → k ≤ s.seq → b + 1 ≠ k
    omega

/-- A write section changes the table. -/
theorem changes {w : RouteOp} {v : ℤ} (ht : writes (s.loc t) = true) (hpath : Linked m'.next .head q')
    (hnodup : (Cell.head :: q').Nodup) (htable : ∀ c, c ∈ q' ↔ m'.status c = .table)
    (hhead : m'.status .head = .unused)
    (hfreed : ∀ c, m'.status c = .table ∨ (∃ t, m'.status c = .own t) → m'.freed c = false)
    (hs : ∀ u, u ≠ t → ∀ c, s.status c = .own u ∨ s.status c = .removed u → Same s.toHeap m' c)
    (ho : pend (s.loc t) = .called w) (ha : routes.apply w (s.rows q) = (m'.rows q', v)) (hp : pend l = .done v)
    (hL : locks l = true) (hl : LocInv m' s.seq q' t l) : InvOf ((s.setHeap m').goto t l) q' := by
  obtain ⟨S, hlin⟩ := h.lin
  have hodd := h.odd t ht
  have hlk := locks_of_writes ht
  refine h.of_step rfl hpath hnodup htable hhead hfreed (h.lock.stay rfl (hL.trans hlk.symm))
    (fun hx => absurd hx (h.locked hlk)) (.inl rfl) (fun _ => hodd)
    (fun u hu => ⟨hs u hu, .inr ⟨le_rfl, h.not_locks hlk hu, fun k hk _ hx => ?_⟩⟩) hl ⟨_, hlin.effect rfl ho ha hp⟩
  change s.seq = k at hx
  omega

/-- A thread changes an entry of its own, or lets it go. -/
theorem private' {m' : Heap n} (hp : pend l = pend (s.loc t)) (hL : locks l = locks (s.loc t))
    (hw : writes l = true → writes (s.loc t) = true) (hrep : s.status rep = .own t ∨ s.status rep = .removed t)
    (hs : ∀ c, c ≠ rep → Same s.toHeap m' c) (hst : m'.status rep = s.status rep ∨ m'.status rep = .unused)
    (hf : m'.freed = s.freed ∨ s.status rep = .removed t ∧ m'.status rep = .removed t ∧
      m'.freed = Function.update s.freed rep true)
    (hl : LocInv m' s.seq q t l) : InvOf ((s.setHeap m').goto t l) q := by
  obtain ⟨S, hlin⟩ := h.lin
  have hnot : s.status rep ≠ .table := by rcases hrep with hx | hx <;> rw [hx] <;> nofun
  have hused : s.status rep ≠ .unused := by rcases hrep with hx | hx <;> rw [hx] <;> nofun
  have hout := h.not_mem hnot (h.ne_head hused)
  have hin : ∀ c ∈ Cell.head :: q, Same s.toHeap m' c := fun c hc => hs c fun hx => hout (hx ▸ hc)
  have hiff : ∀ c, m'.status c = .table ↔ s.status c = .table := fun c => by
    by_cases hc : c = rep
    · rw [hc]
      refine iff_of_false (fun hx => ?_) hnot
      rcases hst with hst | hst
      · exact hnot (hst.symm.trans hx)
      · rw [hst] at hx
        cases hx
    · rw [(hs c hc).status]
  refine h.of_step rfl (h.path.congr fun c hc => (hin c hc).next) h.nodup (fun c => (h.table c).trans (hiff c).symm)
    ((hin _ List.mem_cons_self).status.trans h.head) (fun c hc => ?_) (h.lock.stay rfl hL) h.even (.inl rfl)
    (fun hx => h.odd t (hw hx)) (fun u hu => .aside fun c => ?_) hl ⟨S, ?_⟩
  · have hold : s.status c = .table ∨ ∃ t, s.status c = .own t := by
      by_cases hcr : c = rep
      · rw [hcr] at hc ⊢
        rcases hst with hst | hst
        · rwa [← hst]
        · change m'.status rep = .table ∨ ∃ t, m'.status rep = .own t at hc
          rw [hst] at hc
          rcases hc with hc | ⟨v, hc⟩ <;> cases hc
      · rwa [← (hs c hcr).status]
    rcases hf with hf | ⟨hr, hr', hf⟩
    · show m'.freed c = false
      rw [hf]
      exact h.freed c hold
    · have hcr : c ≠ rep := by
        rintro rfl
        rw [hr] at hold
        rcases hold with hx | ⟨v, hx⟩ <;> cases hx
      show m'.freed c = false
      rw [hf, Function.update_of_ne hcr]
      exact h.freed c hold
  · by_cases hcr : c = rep
    · refine .inr ⟨hcr ▸ hout, ?_⟩
      rw [hcr]
      rcases hrep with hx | hx <;> rw [hx]
      · exact ⟨fun he => hu (Status.own.inj he).symm, nofun⟩
      · exact ⟨nofun, fun he => hu (Status.removed.inj he).symm⟩
    · exact .inl (hs c hcr)
  · show Lin routes s.hist S _ (m'.rows q)
    rw [rows_same hin]
    exact hlin.stay rfl hp

theorem takes {op : Update} (hx : s.loc t = .lock op) (hlock : s.lock = none) :
    InvOf ({ s with lock := some t }.goto t (.lockRead op)) q := by
  obtain ⟨S, hlin⟩ := h.lin
  have ht := h.loc t
  rw [hx] at ht
  have hl := h.lock
  rw [hlock] at hl
  exact h.of_step rfl h.path h.nodup h.table h.head h.freed (hl.take rfl rfl) nofun (.inl rfl) nofun
    (fun _ _ => .aside fun c => .inl (.refl _ c)) ⟨h.even hlock, ht⟩ ⟨S, hlin.stay rfl (by rw [hx]; rfl)⟩

theorem drops {k : After} (hx : s.loc t = .unlock k) : InvOf ({ s with lock := none }.goto t k.loc) q := by
  obtain ⟨S, hlin⟩ := h.lin
  have ht := h.loc t
  rw [hx] at ht
  obtain ⟨heven, hk⟩ := ht
  have hstep : ∀ l, locks l = false → pend l = pend (s.loc t) → LocInv s.toHeap s.seq q t l →
      InvOf ({ s with lock := none }.goto t l) q := fun l hL hp hl =>
    h.of_step rfl h.path h.nodup h.table h.head h.freed (h.lock.drop rfl (by rw [hx]; rfl) hL) (fun _ => heven) (.inl rfl)
      (fun hw => by rw [locks_of_writes hw] at hL; cases hL) (fun _ _ => .aside fun c => .inl (.refl _ c)) hl
      ⟨S, hlin.stay rfl hp⟩
  cases k with
  | mark rep => exact hstep _ rfl (by rw [hx]; rfl) hk
  | ret v => exact hstep _ rfl (by rw [hx]; rfl) trivial

/-- **`route_add` links its entry.** -/
theorem link_step (hx : s.loc t = .addLink addr iface rep) :
    InvOf ((s.setHeap ((s.toHeap.store .head (some rep)).setStatus rep .table)).goto t (.unlockRead (.ret 0))) (rep :: q) := by
  have ht := h.loc t
  rw [hx] at ht
  obtain ⟨⟨hs, ha, hi⟩, hnext⟩ := ht
  have hne : rep ≠ .head := h.ne_head (by rw [hs]; nofun)
  have hout := h.not_mem (c := rep) (by rw [hs]; nofun) hne
  have hstore : (s.toHeap.store .head (some rep)).next .head = some rep := store_next
  have hhead : Cell.head ∉ q := (List.nodup_cons.mp h.nodup).1
  refine h.changes (w := .add addr iface true) (v := 0) (by rw [hx]; rfl) ⟨hstore, ?_⟩ ?_ (fun c => ?_) ?_
    (fun c hc => ?_) (fun u hu c hc => ?_) (by rw [hx]; rfl) ?_ rfl rfl trivial
  · exact h.path.moved ((store_next_ne hne).trans hnext) fun c hc => store_next_ne fun he => hhead (he ▸ hc)
  · rw [List.nodup_cons, List.nodup_cons, List.mem_cons, not_or]
    exact ⟨⟨hne.symm, hhead⟩, fun hm => hout (List.mem_cons_of_mem _ hm), (List.nodup_cons.mp h.nodup).2⟩
  · show c ∈ rep :: q ↔ Function.update s.status rep .table c = .table
    by_cases hc : c = rep
    · rw [hc, Function.update_self]
      exact iff_of_true List.mem_cons_self rfl
    · rw [Function.update_of_ne hc, ← h.table c, List.mem_cons]
      exact or_iff_right hc
  · exact (Function.update_of_ne hne.symm ..).trans h.head
  · refine h.freed c ?_
    by_cases hcr : c = rep
    · rw [hcr]
      exact .inr ⟨t, hs⟩
    · have hst : Function.update s.status rep .table c = s.status c := Function.update_of_ne hcr ..
      exact hst ▸ hc
  · have hcr : c ≠ rep := fun he => by
      rw [he, hs] at hc
      rcases hc with hc | hc
      · exact hu (Status.own.inj hc).symm
      · cases hc
    have hch : c ≠ .head := h.ne_head (by rcases hc with hc | hc <;> rw [hc] <;> nofun)
    exact (Same.store hch).trans (.setStatus hcr)
  · show routes.apply (.add addr iface true) (s.rows q) = ((s.addr rep, s.iface rep) :: s.rows q, 0)
    rw [ha, hi]
    rfl

/-- **`route_del` unlinks the entry it has found.** -/
theorem unlink_step (hx : s.loc t = .unlink addr repp rep x) : ∃ q',
    InvOf ((s.setHeap ((s.toHeap.store repp x).setStatus rep (.removed t))).goto t (.unlockRead (.mark rep))) q' := by
  have ht := h.loc t
  rw [hx] at ht
  obtain ⟨⟨l₁, l₂, hp, hc⟩, ha, hnext⟩ := ht
  obtain rfl := hp.1
  have hs : s.status rep = .table := (h.table rep).mp hp.mem
  have hne : rep ≠ .head := h.ne_head (by rw [hs]; nofun)
  have hnd := h.nodup
  have hmem : repp ∈ Cell.head :: (l₁ ++ rep :: l₂) := by
    rw [hc, ← List.cons_append]
    exact List.mem_append_left _ before_mem
  have hrep : rep ∉ l₁ ++ l₂ := (List.nodup_cons.mp (List.nodup_middle.mp (List.nodup_cons.mp hnd).2)).1
  have hsub : (l₁ ++ l₂).Sublist (l₁ ++ rep :: l₂) := (List.sublist_cons_self ..).append_left l₁
  refine ⟨l₁ ++ l₂, h.changes (w := .del addr) (v := 0) (by rw [hx]; rfl) ?_ (hnd.sublist (hsub.cons_cons _)) (fun c => ?_) ?_
    (fun c hcf => h.freed c ?_) (fun u hu c hcu => ?_) (by rw [hx]; rfl) ?_ rfl rfl (Function.update_self ..)⟩
  · refine h.path.erase ?_ (fun c _ hcb => store_next_ne (hc ▸ hcb)) hnd
    rw [← hc]
    exact store_next.trans hnext
  · show c ∈ l₁ ++ l₂ ↔ Function.update s.status rep (.removed t) c = .table
    by_cases hcr : c = rep
    · rw [hcr, Function.update_self]
      exact iff_of_false hrep nofun
    · rw [Function.update_of_ne hcr, ← h.table c]
      simp [hcr]
  · exact (Function.update_of_ne hne.symm ..).trans h.head
  · by_cases hcr : c = rep
    · rw [hcr]
      exact .inl hs
    · have hst : Function.update s.status rep (.removed t) c = s.status c := Function.update_of_ne hcr ..
      exact hst ▸ hcf
  · have hct : s.status c ≠ .table := by rcases hcu with hcu | hcu <;> rw [hcu] <;> nofun
    have hch : c ≠ .head := h.ne_head (by rcases hcu with hcu | hcu <;> rw [hcu] <;> nofun)
    have hout := h.not_mem hct hch
    have hcp : c ≠ repp := fun he => hout (he ▸ hmem)
    have hcr : c ≠ rep := fun he => hct (he ▸ hs)
    exact (Same.store hcp).trans (.setStatus hcr)
  · show routes.apply (.del addr) (s.rows (l₁ ++ rep :: l₂)) = (s.rows (l₁ ++ l₂), 0)
    rw [rows_append, rows_append, rows_cons, ha]
    exact routes_del hp.rows_ne

/-- **`route_clear` empties the list.** -/
theorem clear_step (hx : s.loc t = .clearStore o) :
    InvOf ((s.setHeap ((s.toHeap.store .head none).removeAll t)).goto t (.clearLoop o)) [] := by
  have ht := h.loc t
  rw [hx] at ht
  have hnd := List.nodup_cons.mp h.nodup
  have hstore : (s.toHeap.store .head none).next .head = none := store_next
  have hst : ∀ c, ((s.toHeap.store .head none).removeAll t).status c =
      if s.status c = .table then .removed t else s.status c := fun _ => rfl
  have hnt : ∀ c, ((s.toHeap.store .head none).removeAll t).status c ≠ .table := fun c => by
    rw [hst]
    split
    · nofun
    · assumption
  refine h.changes (w := .clear) (v := 0) (by rw [hx]; rfl) hstore (List.nodup_singleton _)
    (fun c => iff_of_false List.not_mem_nil (hnt c)) ?_ (fun c hc => h.freed c ?_) (fun u hu c hcu => ?_) (by rw [hx]; rfl)
    rfl rfl rfl ⟨q, ?_, hnd.2, fun c hc => ?_, fun c l' hl => ?_⟩
  · rw [hst, h.head]
    rfl
  · rcases hc with hc | ⟨u, hc⟩
    · exact absurd hc (hnt c)
    · change (if s.status c = .table then Status.removed t else s.status c) = .own u at hc
      split at hc
      · cases hc
      · exact .inr ⟨u, hc⟩
  · have hct : s.status c ≠ .table := by rcases hcu with hcu | hcu <;> rw [hcu] <;> nofun
    have hch : c ≠ .head := h.ne_head (by rcases hcu with hcu | hcu <;> rw [hcu] <;> nofun)
    exact ⟨store_next_ne hch, rfl, rfl, if_neg hct⟩
  · exact h.path.head.symm.trans ht.symm
  · exact if_pos ((h.table c).mp hc)
  · subst hl
    refine h.path.2.congr fun c' hc' => store_next_ne ?_
    rintro rfl
    exact hnd.1 hc'

end InvOf

/-- A call has told where it starts: the lock is taken, and nothing is known yet but the entry of `route_add`. -/
theorem locked_loc (k : Update) (hk : k.Ready m t) : LocInv m a q t k.loc := by
  cases k with
  | add addr iface rep => exact hk
  | del addr => exact ⟨[], q, ⟨rfl, nofun⟩, rfl⟩
  | clear => trivial

theorem locked_pend (k : Update) : pend k.loc = .called k.op ∧ locks k.loc = true := by
  cases k <;> exact ⟨rfl, rfl⟩

namespace InvOf

variable (h : InvOf s q)
include h

/-- **What `route_del` does on its way.** -/
theorem del_step (hx : s.loc t = .delLoad addr repp) (hn : stepThread t s = some s') : InvOf s' q := by
  have ht := h.loc t
  rw [hx] at ht
  obtain ⟨l₁, l₂, hp, rfl⟩ := ht
  have hnext := h.next_passed hp
  simp only [stepThread, hx] at hn
  cases l₂ with
  | nil =>
    simp only [hnext, List.head?_nil, Option.some.injEq] at hn
    subst hn
    refine h.decided (w := .del addr) (by rw [hx]; rfl) ?_ rfl (by rw [hx]; rfl) (fun _ => by rw [hx]; rfl) trivial
    have hq : q = l₁ := by rw [hp.1, List.append_nil]
    rw [hq]
    exact routes_del_none hp.rows_ne
  | cons rep l₂ =>
    simp only [hnext, List.head?_cons, Option.some.injEq] at hn
    subst hn
    exact h.goto (by rw [hx]; rfl) (by rw [hx]; rfl) (fun _ => by rw [hx]; rfl) ⟨l₁, l₂, hp, rfl⟩

/-- **What `route_clear` does on its way.** -/
theorem clearLoop_step (hx : s.loc t = .clearLoop o) (hn : stepThread t s = some s') : InvOf s' q := by
  have ht := h.loc t
  rw [hx] at ht
  obtain ⟨L, hr⟩ := ht
  simp only [stepThread, hx] at hn
  cases o with
  | none =>
    simp only [Option.some.injEq] at hn
    subst hn
    exact h.goto (by rw [hx]; rfl) (by rw [hx]; rfl) (fun _ => by rw [hx]; rfl) trivial
  | some rep =>
    simp only [Option.some.injEq] at hn
    subst hn
    obtain ⟨L, rfl⟩ := List.head?_eq_some_iff.mp hr.1
    exact h.goto (by rw [hx]; rfl) (by rw [hx]; rfl) (fun _ => by rw [hx]; rfl) ⟨L, hr, (hr.2.2.2 rep L rfl).head.symm⟩

/-- **`route_clear` frees an entry.** -/
theorem clearFree_step (hx : s.loc t = .clearFree rep o) :
    InvOf ((s.setHeap (s.toHeap.setStatus rep .unused)).goto t (.clearLoop o)) q := by
  have ht := h.loc t
  rw [hx] at ht
  obtain ⟨L, ⟨-, hnd, hs, hlink⟩, ho⟩ := ht
  obtain ⟨hrep, hnd⟩ := List.nodup_cons.mp hnd
  refine h.private' (by rw [hx]; rfl) (by rw [hx]; rfl) (fun _ => by rw [hx]; rfl) (.inr (hs rep List.mem_cons_self))
    (fun c hc => .setStatus hc) (.inr (Function.update_self ..)) (.inl rfl) ⟨L, ho, hnd, fun c hc => ?_, fun c l' hl => ?_⟩
  · have hne : c ≠ rep := fun he => hrep (he ▸ hc)
    exact (Function.update_of_ne hne ..).trans (hs c (List.mem_cons_of_mem _ hc))
  · subst hl
    exact (hlink rep _ rfl).2

/-- **What an update does.** -/
theorem update_step (hl : ∀ addr, pend (s.loc t) ≠ .called (.lookup addr)) (hn : stepThread t s = some s') :
    ∃ q', InvOf s' q' := by
  have ht := h.loc t
  cases hx : s.loc t with
  | noMem addr iface =>
    simp only [stepThread, hx, Option.some.injEq] at hn
    subst hn
    exact ⟨q, h.decided (w := .add addr iface false) (by rw [hx]; rfl) rfl rfl (by rw [hx]; rfl) nofun trivial⟩
  | lock k =>
    simp only [stepThread, hx, Option.ite_none_right_eq_some, Option.some.injEq] at hn
    obtain ⟨hlock, rfl⟩ := hn
    exact ⟨q, h.takes hx hlock⟩
  | lockRead k =>
    rw [hx] at ht
    simp only [stepThread, hx, Option.some.injEq] at hn
    subst hn
    exact ⟨q, h.goto (by rw [hx]; rfl) (by rw [hx]; rfl) nofun ⟨rfl, ht⟩⟩
  | lockStore k b =>
    rw [hx] at ht
    obtain ⟨hseq, heven, hk⟩ := ht
    simp only [stepThread, hx, Option.some.injEq] at hn
    subst hn
    obtain ⟨hp, hL⟩ := locked_pend k
    exact ⟨q, h.counts (by rw [hx]; rfl) hseq (by rw [hx, hp]; rfl) hL (fun _ => by omega) (locked_loc k hk)⟩
  | addLoad addr iface rep =>
    rw [hx] at ht
    simp only [stepThread, hx, Option.some.injEq] at hn
    subst hn
    exact ⟨q, h.goto (by rw [hx]; rfl) (by rw [hx]; rfl) (fun _ => by rw [hx]; rfl) ⟨ht, rfl⟩⟩
  | addStore addr iface rep x =>
    rw [hx] at ht
    obtain ⟨ho, rfl⟩ := ht
    simp only [stepThread, hx, Option.some.injEq] at hn
    subst hn
    have hne : Cell.head ≠ rep := (h.ne_head (by rw [ho.1]; nofun)).symm
    exact ⟨q, h.private' (by rw [hx]; rfl) (by rw [hx]; rfl) (fun _ => by rw [hx]; rfl) (.inl ho.1)
      (fun c hc => .store hc) (.inl rfl) (.inl rfl) ⟨ho, store_next.trans (store_next_ne hne).symm⟩⟩
  | addLink addr iface rep =>
    simp only [stepThread, hx, Option.some.injEq] at hn
    subst hn
    exact ⟨_, h.link_step hx⟩
  | delLoad addr repp => exact ⟨q, h.del_step hx hn⟩
  | delAddr addr repp rep =>
    rw [hx] at ht
    obtain ⟨l₁, l₂, hp, hc⟩ := ht
    simp only [stepThread, hx, Option.some.injEq] at hn
    subst hn
    split
    · rename_i ha
      exact ⟨q, h.goto (by rw [hx]; rfl) (by rw [hx]; rfl) (fun _ => by rw [hx]; rfl) ⟨⟨l₁, l₂, hp, hc⟩, ha⟩⟩
    · rename_i ha
      refine ⟨q, h.goto (by rw [hx]; rfl) (by rw [hx]; rfl) (fun _ => by rw [hx]; rfl) ?_⟩
      obtain ⟨l₁, hp⟩ := hp.next ha
      exact ⟨l₁, l₂, hp⟩
  | delRead addr repp rep =>
    rw [hx] at ht
    simp only [stepThread, hx, Option.some.injEq] at hn
    subst hn
    exact ⟨q, h.goto (by rw [hx]; rfl) (by rw [hx]; rfl) (fun _ => by rw [hx]; rfl) ⟨ht.1, ht.2, rfl⟩⟩
  | unlink addr repp rep x =>
    simp only [stepThread, hx, Option.some.injEq] at hn
    subst hn
    exact h.unlink_step hx
  | clearLoad =>
    simp only [stepThread, hx, Option.some.injEq] at hn
    subst hn
    exact ⟨q, h.goto (by rw [hx]; rfl) (by rw [hx]; rfl) (fun _ => by rw [hx]; rfl) rfl⟩
  | clearStore o =>
    simp only [stepThread, hx, Option.some.injEq] at hn
    subst hn
    exact ⟨[], h.clear_step hx⟩
  | clearLoop o => exact ⟨q, h.clearLoop_step hx hn⟩
  | clearFree rep rep1 =>
    simp only [stepThread, hx, Option.some.injEq] at hn
    subst hn
    exact ⟨q, h.clearFree_step hx⟩
  | unlockRead k =>
    rw [hx] at ht
    simp only [stepThread, hx, Option.some.injEq] at hn
    subst hn
    exact ⟨q, h.goto (by rw [hx]; rfl) (by rw [hx]; rfl) (fun _ => by rw [hx]; rfl) ⟨rfl, ht⟩⟩
  | unlockStore k b =>
    rw [hx] at ht
    obtain ⟨hseq, hk⟩ := ht
    have hodd := h.odd t (by rw [hx]; rfl)
    simp only [stepThread, hx, Option.some.injEq] at hn
    subst hn
    exact ⟨q, h.counts (by rw [hx]; rfl) hseq (by rw [hx]; rfl) rfl nofun ⟨by omega, hk⟩⟩
  | unlock k =>
    simp only [stepThread, hx, Option.some.injEq] at hn
    subst hn
    exact ⟨q, h.drops hx⟩
  | mark rep =>
    rw [hx] at ht
    simp only [stepThread, hx, Option.some.injEq] at hn
    subst hn
    exact ⟨q, h.private' (by rw [hx]; rfl) (by rw [hx]; rfl) nofun (.inr ht) (fun c _ => ⟨rfl, rfl, rfl, rfl⟩) (.inl rfl)
      (.inr ⟨ht, ht, rfl⟩) ht⟩
  | free rep =>
    rw [hx] at ht
    simp only [stepThread, hx, Option.some.injEq] at hn
    subst hn
    exact ⟨q, h.private' (by rw [hx]; rfl) (by rw [hx]; rfl) nofun (.inr ht) (fun c hc => .setStatus hc)
      (.inr (Function.update_self ..)) (.inl rfl) trivial⟩
  | ret v =>
    simp only [stepThread, hx, Option.some.injEq] at hn
    subst hn
    exact ⟨q, h.returns (by rw [hx]; rfl) (by rw [hx]; rfl)⟩
  | readRet v =>
    simp only [stepThread, hx, Option.some.injEq] at hn
    subst hn
    exact ⟨q, h.returns (by rw [hx]; rfl) (by rw [hx]; rfl)⟩
  | idle =>
    simp only [stepThread, hx] at hn
    cases hn
  | _ =>
    rw [hx] at hl
    exact absurd rfl (hl _)

/-! ### What is not in use -/

/-- What is not in use may change. -/
theorem unused_same (hs : s.status rep = .unused) (hrep : rep ≠ .head) (hm : ∀ c, c ≠ rep → Same s.toHeap m' c)
    (c : Cell) : Same s.toHeap m' c ∨ c ∉ Cell.head :: q ∧ s.status c ≠ .own u ∧ s.status c ≠ .removed u := by
  by_cases hc : c = rep
  · rw [hc, hs]
    exact .inr ⟨h.not_mem (by rw [hs]; nofun) hrep, nofun, nofun⟩
  · exact .inl (hm c hc)

theorem rows_unused (hs : s.status rep = .unused) (hrep : rep ≠ .head) (hm : ∀ c, c ≠ rep → Same s.toHeap m' c) :
    ∀ c ∈ Cell.head :: q, Same s.toHeap m' c := fun c hc =>
  hm c fun he => h.not_mem (by rw [hs]; nofun) hrep (he ▸ hc)

/-- An entry is allocated, and `route_add` goes on. -/
theorem alloc_step (hidle : s.loc t = .idle) (hs : s.status (.entry a) = .unused) :
    InvOf ((s.setHeap (s.toHeap.alloc t (.entry a) addr iface)).call t (.add addr iface true)
      (.lock (.add addr iface (.entry a)))) q := by
  obtain ⟨S, hlin⟩ := h.lin
  have hm : ∀ c, c ≠ .entry a → Same s.toHeap (s.toHeap.alloc t (.entry a) addr iface) c := fun c hc =>
    (Same.fill hc).trans (.setStatus hc)
  have hin := h.rows_unused hs nofun hm
  have hst : ∀ c, (s.toHeap.alloc t (.entry a) addr iface).status c = Function.update s.status (.entry a) (.own t) c :=
    fun _ => rfl
  refine h.of_step rfl (h.path.congr fun c hc => (hin c hc).next) h.nodup (fun c => (h.table c).trans ?_)
    ((hin _ List.mem_cons_self).status.trans h.head) (fun c hc => ?_) (h.lock.stay rfl (by rw [hidle]; rfl)) h.even (.inl rfl)
    nofun (fun u hu => .aside (h.unused_same hs nofun hm))
    ⟨Function.update_self .., Function.update_self .., Function.update_self ..⟩ ⟨S, ?_⟩
  · exact (status_iff (x := .table) (z := .own t) hs nofun nofun c).symm
  · show Function.update s.freed (.entry a) false c = false
    by_cases hca : c = .entry a
    · rw [hca, Function.update_self]
    · rw [Function.update_of_ne hca]
      have hsc : (s.toHeap.alloc t (.entry a) addr iface).status c = s.status c := (hm c hca).status
      exact h.freed c (hsc ▸ hc)
  · show Lin routes _ S _ ((s.toHeap.alloc t (.entry a) addr iface).rows q)
    rw [rows_same hin]
    exact hlin.called rfl (by rw [hidle]; rfl) rfl

/-- Memory that is not in use is written, and no thread goes on. -/
theorem write_step {f : Bool} (hs : s.status (.entry a) = .unused) :
    InvOf (s.setHeap (s.toHeap.fill (.entry a) x addr iface f)) q := by
  obtain ⟨S, hlin⟩ := h.lin
  have hm : ∀ c, c ≠ .entry a → Same s.toHeap (s.toHeap.fill (.entry a) x addr iface f) c := fun c hc => .fill hc
  have hin := h.rows_unused hs nofun hm
  refine ⟨h.path.congr fun c hc => (hin c hc).next, h.nodup, h.table, h.head, fun c hc => ?_, h.lock, h.even, h.odd,
    fun u => (h.loc u).step (.aside (h.unused_same hs nofun hm)), S, ?_⟩
  · have hca : c ≠ .entry a := by
      rintro rfl
      change s.status (.entry a) = .table ∨ ∃ t, s.status (.entry a) = .own t at hc
      rw [hs] at hc
      rcases hc with hc | ⟨u, hc⟩ <;> cases hc
    exact (Function.update_of_ne hca ..).trans (h.freed c hc)
  · show Lin routes s.hist S _ ((s.toHeap.fill (.entry a) x addr iface f).rows q)
    rw [rows_same hin]
    exact hlin

end InvOf

namespace InvOf

variable (h : InvOf s q)
include h

/-- No update comes to an entry that was freed. -/
theorem uses (hl : uses (s.loc t) = some (.entry a)) : s.status (.entry a) ≠ .unused := by
  have ht := h.loc t
  have hmem : ∀ {c}, c ∈ q → s.status c ≠ .unused := fun hc => by
    rw [(h.table _).mp hc]
    nofun
  have hbefore : ∀ {l₁ l₂ addr}, Passed s.toHeap q addr l₁ l₂ → Cell.entry a = before .head l₁ →
      s.status (.entry a) ≠ .unused := fun {l₁ l₂ addr} hp he => by
    have hin : Cell.entry a ∈ Cell.head :: l₁ := he ▸ before_mem
    rcases List.mem_cons.mp hin with hin | hin
    · cases hin
    · exact hmem (hp.1 ▸ List.mem_append_left _ hin)
  cases hx : s.loc t with
  | addStore addr iface rep x | addLink addr iface rep =>
    rw [hx] at hl ht
    obtain rfl := Option.some.inj hl
    rw [ht.1.1]
    nofun
  | delLoad addr repp =>
    rw [hx] at hl ht
    obtain rfl := Option.some.inj hl
    obtain ⟨l₁, l₂, hp, hc⟩ := ht
    exact hbefore hp hc
  | delAddr addr repp rep =>
    rw [hx] at hl ht
    obtain rfl := Option.some.inj hl
    obtain ⟨l₁, l₂, hp, -⟩ := ht
    exact hmem hp.mem
  | delRead addr repp rep =>
    rw [hx] at hl ht
    obtain rfl := Option.some.inj hl
    obtain ⟨⟨l₁, l₂, hp, -⟩, -⟩ := ht
    exact hmem hp.mem
  | unlink addr repp rep x =>
    rw [hx] at hl ht
    obtain rfl := Option.some.inj hl
    obtain ⟨⟨l₁, l₂, hp, hc⟩, -⟩ := ht
    exact hbefore hp hc
  | clearLoop o =>
    rw [hx] at hl ht
    cases o with
    | none => cases hl
    | some rep =>
      obtain rfl := Option.some.inj hl
      obtain ⟨L, hhead, -, hs, -⟩ := ht
      rw [hs _ (List.mem_of_head? hhead)]
      nofun
  | clearFree rep rep1 =>
    rw [hx] at hl ht
    obtain rfl := Option.some.inj hl
    obtain ⟨L, ⟨-, -, hs, -⟩, -⟩ := ht
    rw [hs _ List.mem_cons_self]
    nofun
  | mark rep | free rep =>
    rw [hx] at hl ht
    obtain rfl := Option.some.inj hl
    have ht : s.status (.entry a) = .removed t := ht
    rw [ht]
    nofun
  | _ =>
    rw [hx] at hl
    cases hl

theorem holds : Holds s where
  lin := by
    obtain ⟨S, hlin⟩ := h.lin
    exact ⟨q, S, h.path, (List.nodup_cons.mp h.nodup).2, h.table, hlin⟩
  uses _ _ := h.uses
  aborts t addr k hx := by
    have ht := h.loc t
    rwa [hx] at ht

end InvOf

/-! ### Runs -/

/-- **A step keeps the invariant.** -/
theorem inv_next {x : Act n} (h : InvOf s q) (hn : next x s = some s') : ∃ q', InvOf s' q' := by
  cases x with
  | lookup t addr =>
    simp only [next, Option.ite_none_right_eq_some, Option.some.injEq] at hn
    obtain ⟨hidle, rfl⟩ := hn
    exact ⟨q, h.calls hidle rfl rfl trivial⟩
  | add t addr iface o =>
    cases o with
    | none =>
      simp only [next, Option.ite_none_right_eq_some, Option.some.injEq] at hn
      obtain ⟨hidle, rfl⟩ := hn
      exact ⟨q, h.calls hidle rfl rfl trivial⟩
    | some a =>
      simp only [next, Option.ite_none_right_eq_some, Option.some.injEq] at hn
      obtain ⟨⟨hidle, hs⟩, rfl⟩ := hn
      exact ⟨q, h.alloc_step hidle hs⟩
  | del t addr =>
    simp only [next, Option.ite_none_right_eq_some, Option.some.injEq] at hn
    obtain ⟨hidle, rfl⟩ := hn
    exact ⟨q, h.calls hidle rfl rfl trivial⟩
  | clear t =>
    simp only [next, Option.ite_none_right_eq_some, Option.some.injEq] at hn
    obtain ⟨hidle, rfl⟩ := hn
    exact ⟨q, h.calls hidle rfl rfl trivial⟩
  | step t =>
    by_cases hl : ∃ addr, pend (s.loc t) = .called (.lookup addr)
    · obtain ⟨addr, hl⟩ := hl
      exact ⟨q, h.lookup_step hl hn⟩
    · exact h.update_step (not_exists.mp hl) hn
  | write a next addr iface freed =>
    simp only [RouteSeqlock.next, Option.ite_none_right_eq_some, Option.some.injEq] at hn
    obtain ⟨hs, rfl⟩ := hn
    exact ⟨q, h.write_step hs⟩

theorem inv_init (h : Init s) : InvOf s [] where
  path := h.routeList
  nodup := List.nodup_singleton _
  table c := by
    rw [h.status c]
    exact iff_of_false List.not_mem_nil nofun
  head := h.status _
  freed c hc := by
    rw [h.status c] at hc
    rcases hc with hc | ⟨u, hc⟩ <;> cases hc
  lock t := by
    rw [h.lock, h.loc t]
    exact iff_of_false nofun nofun
  even _ := by rw [h.seq]
  odd t ht := by
    rw [h.loc t] at ht
    cases ht
  loc t := by
    rw [h.loc t]
    trivial
  lin := by
    have hpend : (fun t => pend (s.loc t)) = fun _ => .idle := funext fun t => by rw [h.loc t]; rfl
    rw [h.hist, hpend]
    exact ⟨[], .init⟩

/-- **`route_seqlock.c` is linearizable**, whatever lookups find in memory that was freed. -/
theorem seqlock_routes_linearizable (h : (sys n).Reach Sys.always s) : Holds s := by
  have hinv : ∃ q, InvOf s q := h.inv (I := fun s => ∃ q, InvOf s q) (fun _ h => ⟨[], inv_init h⟩)
    fun _ _ _ h _ hn => by
      obtain ⟨q, h⟩ := h
      exact inv_next h hn
  obtain ⟨q, h⟩ := hinv
  exact h.holds

/-- No entry is allocated. -/
def start (n : ℕ) : St n where
  next := fun _ => none
  addr := fun _ => 0
  iface := fun _ => 0
  freed := fun _ => false
  status := fun _ => .unused
  seq := 0
  lock := none
  loc := fun _ => .idle
  hist := []

theorem init_start (n : ℕ) : Init (start n) := ⟨rfl, rfl, rfl, fun _ => rfl, fun _ => rfl, rfl⟩

/-- A lookup stands on an entry that is freed and then written: it goes round in it, and then starts over. -/
theorem seqlock_routes_linearizable_retry : ∃ s : St 2, (sys 2).Reach Sys.always s ∧
    results s.hist = [(0, 0), (0, 0), (1, ULONG_MAX)] ∧ s.seq = 4 ∧ Holds s := by
  have hrun : ((sys 2).run Sys.always (
      [.add 0 1 10 (some 5)] ++ List.replicate 10 (.step 0) ++ [.lookup 1 2] ++ List.replicate 3 (.step 1) ++
      [.del 0 1] ++ List.replicate 13 (.step 0) ++ [.write 5 (some (.entry 5)) 1 20 false] ++ List.replicate 3 (.step 1) ++
      [.write 5 none 1 20 false] ++ List.replicate 7 (.step 1)) (start 2)).map
      (fun s => (results s.hist, s.seq)) = some ([(0, 0), (0, 0), (1, ULONG_MAX)], 4) := by
    decide +kernel
  obtain ⟨s, hs, hend⟩ := Option.map_eq_some_iff.mp hrun
  have hreach := Sys.run_reach (.init (init_start 2)) hs
  rw [Prod.mk.injEq] at hend
  exact ⟨s, hreach, hend.1, hend.2, seqlock_routes_linearizable hreach⟩

end RouteSeqlock
end Perfbook
