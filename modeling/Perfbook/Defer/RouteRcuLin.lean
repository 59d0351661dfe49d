/-
# `route_rcu.c` is linearizable

The table changes where an entry is linked or unlinked, or is found not to be there, under
`routelock`. A lookup returns what the table has answered at some instant of its call. It comes
to no entry that was freed, though `malloc` hands out entries again.

Key definition: `Observed`.
Key theorems: `InvOf.of_step`, `InvOf.update_step`, `inv_next`, `routes_linearizable`.
-/
import Perfbook.Defer.RouteRcuInv

namespace Perfbook
namespace RouteRcu

open Conc Routes

variable {n : ℕ} {m m' : Heap n} {s s' : St n} {live live' l₁ l₂ : List ℕ} {saw saw₁ : Fin n → ℤ → Prop}
  {t u : Fin n} {l : Loc} {addr rep a : ℕ} {iface ret v : ℤ} {c : Cell} {o : RouteOp}

/-- What lookups saw, and what they see now. -/
def Observed (saw : Fin n → ℤ → Prop) (s : St n) (live : List ℕ) (u : Fin n) (v : ℤ) : Prop :=
  saw u v ∨ ∃ addr, looks (s.loc u) = some addr ∧ v = answer (s.rows live) addr

/-- The invariant. -/
def Inv (s : St n) : Prop := ∃ live saw, InvOf s live saw

theorem pend_of_looks (h : looks l = some addr) : pend l = .called (.lookup addr) := by
  unfold looks at h
  split at h
  · rename_i hp
    rw [hp, Option.some.inj h]
  · cases h

/-- What lookups see is noted. -/
theorem Inv.observed (hring : Ring Cell.entry .head s'.links live')
    (htable : ∀ a, a ∈ live' ↔ s'.status a = .table) (hlock : LockedBy locks s'.routelock s'.loc)
    (hfreed : ∀ a, s'.freed a = true → s'.status a = .unused ∨ s'.status a = .freeing)
    (hl : ∀ u, LocInv s'.toHeap live' (Observed saw₁ s' live' u) u (s'.loc u))
    (hseen : Seen routes s'.hist (fun t => pend (s'.loc t)) saw₁ (s'.rows live')) : Inv s' :=
  ⟨live', Observed saw₁ s' live', hring, htable, hlock, hfreed, fun _ addr ha => .inr ⟨addr, ha, rfl⟩, hl,
    hseen.observe fun _ _ hr => hr.imp_right fun ⟨addr, ha, hv⟩ => ⟨.lookup addr, pend_of_looks ha, fun _ => rfl, hv⟩⟩

theorem Passed.rows_ne (h : Passed m live addr l₁ l₂) : ∀ x ∈ m.rows l₁, x.1 ≠ addr := by
  intro x hx
  obtain ⟨a, ha, rfl⟩ := List.mem_map.mp hx
  exact h.2 a ha

theorem Passed.none (h : Passed m live addr l₁ []) : routes.apply (.del addr) (m.rows live) = (m.rows live, -ENOENT) := by
  rw [h.1, List.append_nil]
  exact routes_del_none h.rows_ne

/-- Unlinking the first entry of its address deletes it from the table. -/
theorem Passed.del (h : Passed m live addr l₁ (rep :: l₂)) (ha : m.addr rep = addr) :
    routes.apply (.del addr) (m.rows live) = (m.rows (l₁ ++ l₂), 0) := by
  rw [h.1, Heap.rows, Heap.rows, List.map_append, List.map_append, List.map_cons, ha]
  exact routes_del h.rows_ne

namespace InvOf

variable (h : InvOf s live saw)
include h

theorem used (ha : a ∈ live) : s.status a ≠ .unused := by
  rw [(h.table a).mp ha]
  nofun

omit h in
theorem table_update {x : Status n} (hs : m.status rep ≠ .table) (hx : x ≠ .table) (a : ℕ) :
    Function.update m.status rep x a = .table ↔ m.status a = .table := by
  by_cases ha : a = rep
  · rw [ha, Function.update_self]
    exact iff_of_false hx hs
  · rw [Function.update_of_ne ha]

/-- An entry that is not marked as freed may become anything. -/
theorem freed_update (x : Status n) (hu : s.status rep ≠ .unused) (hf : s.status rep ≠ .freeing) (a : ℕ)
    (ha : s.freed a = true) :
    Function.update s.status rep x a = .unused ∨ Function.update s.status rep x a = .freeing := by
  have hne : a ≠ rep := by
    rintro rfl
    exact (h.freed a ha).elim hu hf
  rw [Function.update_of_ne hne]
  exact h.freed a ha

variable (live' saw₁) in
/-- A thread takes a step that the others do not see from where they are. -/
theorem of_step (hloc : s'.loc = Function.update s.loc t l) (hring : Ring Cell.entry .head s'.links live')
    (htable : ∀ a, a ∈ live' ↔ s'.status a = .table) (hlock : LockedBy locks s'.routelock s'.loc)
    (hfreed : ∀ a, s'.freed a = true → s'.status a = .unused ∨ s'.status a = .freeing)
    (hk : ∀ u, u ≠ t → Kept s.toHeap s'.toHeap u (s.loc u)) (hsaw : ∀ u, u ≠ t → ∀ v, saw u v → saw₁ u v)
    (hlook : ∀ u, u ≠ t → (s.loc u).reads = true → ∀ addr c, looks (s.loc u) = some addr →
      Look s.toHeap u (saw u) addr c → Look s'.toHeap u (Observed saw₁ s' live' u) addr c)
    (hwalk : live' = live ∨ locks (s.loc t) = true)
    (hl : LocInv s'.toHeap live' (Observed saw₁ s' live' t) t l)
    (hseen : Seen routes s'.hist (fun t => pend (s'.loc t)) saw₁ (s'.rows live')) : Inv s' := by
  refine .observed hring htable hlock hfreed ?_ hseen
  refine forall_update (P := fun u x => LocInv s'.toHeap live' (Observed saw₁ s' live' u) u x) hloc hl fun u hu => ?_
  refine (h.loc u).step (hk u hu) (fun a => h.used) (fun v hv => .inl (hsaw u hu v hv)) (hlook u hu) ?_
  refine hwalk.imp_right fun ht => ?_
  rw [← Bool.not_eq_true]
  exact fun hx => hu (h.lock.eq ht hx)

variable (saw₁) in
/-- The list is as it was. -/
theorem same (hloc : s'.loc = Function.update s.loc t l) (hlinks : s'.links = s.links)
    (hstatus : ∀ a, s'.status a = .table ↔ s.status a = .table) (hlock : LockedBy locks s'.routelock s'.loc)
    (hfreed : ∀ a, s'.freed a = true → s'.status a = .unused ∨ s'.status a = .freeing)
    (hk : ∀ u, u ≠ t → Kept s.toHeap s'.toHeap u (s.loc u)) (hsaw : ∀ u, u ≠ t → ∀ v, saw u v → saw₁ u v)
    (hl : LocInv s'.toHeap live (Observed saw₁ s' live t) t l)
    (hseen : Seen routes s'.hist (fun t => pend (s'.loc t)) saw₁ (s'.rows live)) : Inv s' := by
  refine h.of_step live saw₁ hloc (hlinks ▸ h.ring) (fun a => (h.table a).trans (hstatus a).symm) hlock hfreed hk hsaw ?_
    (.inl rfl) hl hseen
  exact fun u hu hr addr c _ => (hk u hu).look hr hlinks fun v hv => .inl (hsaw u hu v hv)

/-- A thread goes on with the lock it has. -/
theorem goto (hp : pend l = pend (s.loc t)) (hL : locks l = locks (s.loc t))
    (hl : LocInv s.toHeap live (saw t) t l) : Inv (s.goto t l) := by
  refine h.same saw rfl rfl (fun _ => .rfl) (h.lock.stay rfl hL) h.freed (fun _ _ => .refl ..) (fun _ _ _ => id) ?_
    (h.seen.stay rfl hp)
  exact hl.step (.refl ..) (fun a => h.used) (fun _ => .inl) (fun hr _ _ _ => (Kept.refl _ t l).look hr rfl fun _ => .inl)
    (.inl rfl)

/-- The table is not changed, and the call has taken effect. -/
theorem decided (ho : pend (s.loc t) = .called o) (ha : routes.apply o (s.rows live) = (s.rows live, v))
    (hp : pend l = .done v) (hL : locks l = locks (s.loc t)) (hl : ∀ saw, LocInv s.toHeap live saw t l) :
    Inv (s.goto t l) :=
  h.same (Seen.others saw t) rfl rfl (fun _ => .rfl) (h.lock.stay rfl hL) h.freed
    (fun _ _ => .refl ..) (fun _ hu _ hv => ⟨hu, hv⟩) (hl _) (h.seen.effect rfl (fun _ _ => id) ho ha hp)

/-- A thread takes the lock. -/
theorem takes (hn : s.lock t l = some s') (hp : pend l = pend (s.loc t)) (hL : locks l = true)
    (hl : ∀ saw, LocInv s.toHeap live saw t l) : Inv s' := by
  unfold St.lock at hn
  split at hn
  · rename_i hfree
    obtain rfl := Option.some.inj hn
    have hlock := h.lock
    rw [hfree] at hlock
    exact h.same saw rfl rfl (fun _ => .rfl) (hlock.take rfl hL) h.freed (fun _ _ => .refl ..) (fun _ _ _ => id) (hl _)
      (h.seen.stay rfl hp)
  · cases hn

/-- A thread releases the lock. -/
theorem drops (ht : locks (s.loc t) = true) (hp : pend l = pend (s.loc t)) (hL : locks l = false)
    (hl : ∀ saw, LocInv s.toHeap live saw t l) : Inv (s.unlock t l) :=
  h.same saw rfl rfl (fun _ => .rfl) (h.lock.drop rfl ht hL) h.freed (fun _ _ => .refl ..) (fun _ _ _ => id) (hl _)
    (h.seen.stay rfl hp)

/-- A call begins. -/
theorem calls (hidle : s.loc t = .idle) (hp : pend l = .called o) (hL : locks l = false)
    (hl : ∀ saw, LocInv s.toHeap live saw t l) : Inv (s.call t o l) :=
  h.same (Seen.others saw t) rfl rfl (fun _ => .rfl) (h.lock.stay rfl (by rw [hidle, hL]; rfl)) h.freed
    (fun _ _ => .refl ..) (fun _ hu _ hv => ⟨hu, hv⟩) (hl _)
    (h.seen.called rfl (fun _ _ => id) (by rw [hidle]; rfl) hp)

/-- A call ends. -/
theorem returns (hp : pend (s.loc t) = .done v ∨ saw t v) (hL : locks (s.loc t) = false) : Inv (s.return' t v) := by
  refine h.same (Seen.others saw t) rfl rfl (fun _ => .rfl) (h.lock.stay rfl (by rw [hL]; rfl))
    h.freed (fun _ _ => .refl ..) (fun _ hu _ hv => ⟨hu, hv⟩) trivial ?_
  rcases hp with hp | hv
  · exact h.seen.returned rfl (fun _ _ => id) hp rfl
  · exact h.seen.answered rfl (fun _ _ => id) hv rfl

/-! ### Lookups -/

/-- A lookup begins to walk. -/
theorem look_head (hl : looks (s.loc t) = some addr) : Look s.toHeap t (saw t) addr (s.links.next .head) := by
  refine ⟨live.find? (s.has addr), ?_, ?_⟩
  · rw [h.ring.next_head]
    exact Finds.of_ring [] h.ring fun a ha => .inl ((h.table a).mp ha)
  · rw [value_find?]
    exact h.now t addr hl

theorem look_next (hl : s.loc t = .readNext addr c) : Look s.toHeap t (saw t) addr (s.links.next c) := by
  have ht := h.loc t
  rw [hl] at ht
  cases c with
  | head => exact h.look_head (by rw [hl]; rfl)
  | entry rep =>
    obtain ⟨hne, r, hr, hv⟩ := ht
    obtain ⟨-, ⟨hs, -⟩ | ⟨-, hr⟩⟩ := hr.at_cell entry_injective entry_ne_head
    · exact absurd (beq_iff_eq.mp hs) hne
    · exact ⟨r, hr, hv⟩

/-- **What a lookup does.** -/
theorem lookup_step (hl : looks (s.loc t) = some addr) (hn : stepThread t s = some s') : Inv s' := by
  have ht := h.loc t
  unfold stepThread at hn
  cases hx : s.loc t with
  | readLock addr =>
    simp only [hx, Option.some.injEq] at hn
    subst hn
    exact h.goto (by rw [hx]; rfl) (by rw [hx]; rfl) trivial
  | readNext addr c =>
    have hlook := h.look_next hx
    simp only [hx] at hn
    cases hc : s.links.next c with
    | head =>
      simp only [hc, Option.some.injEq] at hn
      subst hn
      refine h.goto (by rw [hx]; rfl) (by rw [hx]; rfl) ?_
      obtain ⟨r, hr, hv⟩ := hlook
      rwa [hr.at_head entry_ne_head hc] at hv
    | entry rep =>
      simp only [hc, Option.some.injEq] at hn
      subst hn
      rw [hc] at hlook
      exact h.goto (by rw [hx]; rfl) (by rw [hx]; rfl) hlook
  | readAddr addr rep =>
    rw [hx] at ht
    simp only [hx, Option.some.injEq] at hn
    subst hn
    obtain ⟨r, hr, hv⟩ := ht
    obtain ⟨hsafe, hor⟩ := hr.at_cell entry_injective entry_ne_head
    split
    · rename_i ha
      obtain ⟨-, rfl⟩ := hor.resolve_right fun hne => by
        have := hne.1
        rw [Heap.has, ha, beq_self_eq_true] at this
        cases this
      exact h.goto (by rw [hx]; rfl) (by rw [hx]; rfl) ⟨hsafe, hv⟩
    · rename_i ha
      exact h.goto (by rw [hx]; rfl) (by rw [hx]; rfl) ⟨ha, r, hr, hv⟩
  | readIface addr rep =>
    rw [hx] at ht
    simp only [hx, Option.some.injEq] at hn
    subst hn
    exact h.goto (by rw [hx]; rfl) (by rw [hx]; rfl) ht
  | readFreed addr rep ret =>
    rw [hx] at ht
    simp only [hx, Option.some.injEq] at hn
    subst hn
    have hfreed : s.freed rep = false := by
      rw [← Bool.not_eq_true]
      intro hf
      have hsafe := ht.1
      unfold Safe at hsafe
      rcases h.freed rep hf with hs | hs <;> rw [hs] at hsafe <;> rcases hsafe with hs | ⟨v, hs⟩ | ⟨hs, -⟩ <;> cases hs
    rw [hfreed, if_neg Bool.false_ne_true]
    exact h.goto (by rw [hx]; rfl) (by rw [hx]; rfl) ht.2
  | readUnlock addr ret =>
    rw [hx] at ht
    simp only [hx, Option.some.injEq] at hn
    subst hn
    exact h.same saw rfl rfl (fun _ => .rfl) (h.lock.stay rfl (by rw [hx]; rfl)) h.freed (fun u hu => .unlock hu)
      (fun _ _ _ => id) (.inl ht) (h.seen.stay rfl (by rw [hx]; rfl))
  | readRet addr ret =>
    rw [hx] at ht
    simp only [hx, Option.some.injEq] at hn
    subst hn
    exact h.returns (.inr ht) (by rw [hx]; rfl)
  | delUnlock rep => cases rep <;> rw [hx] at hl <;> cases hl
  | _ =>
    rw [hx] at hl
    cases hl

/-! ### Updates -/

/-- **An entry is added.** -/
theorem link_step (hl : s.loc t = .addLink addr iface rep) :
    Inv ((s.setHeap (s.toHeap.link rep)).goto t .addUnlock) := by
  have ht := h.loc t
  rw [hl] at ht
  obtain ⟨hs, rfl, rfl⟩ := ht
  have hmem : rep ∉ live := fun hm => by
    have := (h.table rep).mp hm
    rw [hs] at this
    cases this
  refine h.of_step (rep :: live) (Seen.others saw t) rfl
    (h.ring.add entry_injective entry_ne_head hmem) (fun a => ?_) (h.lock.stay rfl (by rw [hl]; rfl))
    (h.freed_update .table (by rw [hs]; nofun) (by rw [hs]; nofun)) (fun _ hu => .link hs hu) (fun _ hu _ hv => ⟨hu, hv⟩) (fun u hu hreads addr c _ hlook => ?_)
    (.inr (by rw [hl]; rfl)) trivial (h.seen.effect rfl (fun _ _ => id) (by rw [hl]; rfl) rfl rfl)
  · show a ∈ rep :: live ↔ Function.update s.status rep .table a = .table
    by_cases ha : a = rep
    · rw [ha, Function.update_self]
      exact iff_of_true List.mem_cons_self rfl
    · rw [Function.update_of_ne ha, ← h.table a, List.mem_cons]
      exact or_iff_right ha
  · -- nobody has come to the new entry
    have hunsafe : ¬ Safe s.toHeap u rep := by
      unfold Safe
      rw [hs]
      rintro (hx | ⟨v, hx⟩ | ⟨hx, -⟩) <;> cases hx
    have hk : Kept s.toHeap (s.toHeap.link rep) u (s.loc u) := .link hs hu
    obtain ⟨r, hr, hv⟩ := hlook
    exact ⟨r, hk.finds hreads (hr.add entry_injective entry_ne_head hunsafe), .inl ⟨hu, hk.value hr ▸ hv⟩⟩

/-- **An entry is unlinked.** -/
theorem unlink_step (hl : s.loc t = .delUnlink addr rep) :
    Inv ((s.setHeap (s.toHeap.unlink t rep)).goto t (.delUnlock (some rep))) := by
  have ht := h.loc t
  rw [hl] at ht
  obtain ⟨⟨l₁, l₂, hp⟩, ha⟩ := ht
  have hring := h.ring
  rw [hp.1] at hring
  have hnd := hring.nodup
  have hs : s.status rep = .table := (h.table rep).mp (by rw [hp.1]; simp)
  refine h.of_step (l₁ ++ l₂) (Seen.others saw t) rfl
    (hring.del entry_injective entry_ne_head) (fun a => ?_) (h.lock.stay rfl (by rw [hl]; rfl))
    (h.freed_update (.removed t) (by rw [hs]; nofun) (by rw [hs]; nofun))
    (fun _ _ => .unlink hs) (fun _ hu _ hv => ⟨hu, hv⟩) (fun u hu hreads addr' c hlooks hlook => ?_)
    (.inr (by rw [hl]; rfl)) (Function.update_self ..)
    (h.seen.effect rfl (fun _ _ => id) (by rw [hl]; rfl) (hp.del ha) rfl)
  · show a ∈ l₁ ++ l₂ ↔ Function.update s.status rep (.removed t) a = .table
    by_cases har : a = rep
    · rw [har, Function.update_self]
      refine iff_of_false (fun hm => ?_) nofun
      exact (List.nodup_cons.mp (List.nodup_middle.mp hnd)).1 hm
    · rw [Function.update_of_ne har, ← h.table a, hp.1]
      simp [har]
  · have hk : Kept s.toHeap (s.toHeap.unlink t rep) u (s.loc u) := .unlink hs
    obtain ⟨r, hr, hv⟩ := hlook
    -- the lookup finds what it would have found, or what the table answers now
    obtain ⟨r', hr', hor⟩ := hr.del entry_injective entry_ne_head hring
      (fun a hm => .inl ((h.table a).mp (hp.1 ▸ hm))) fun hx a hm => by
        have hx : s.addr rep = addr' := beq_iff_eq.mp hx
        rw [← hx, ha]
        exact beq_eq_false_iff_ne.mpr (hp.2 a hm)
    refine ⟨r', hk.finds hreads hr', ?_⟩
    rcases hor with rfl | rfl
    · exact .inl ⟨hu, hk.value hr' ▸ hv⟩
    · refine .inr ⟨addr', ?_, value_find? ..⟩
      show looks (Function.update s.loc t _ u) = some addr'
      rwa [Function.update_of_ne hu]

theorem del_next (hl : s.loc t = .delNext addr c) : ∃ l₁ l₂, Passed s.toHeap live addr l₁ l₂ ∧
    s.links.next c = first Cell.entry .head l₂ := by
  have ht := h.loc t
  rw [hl] at ht
  obtain ⟨l₁, l₂, hp, rfl⟩ := ht
  exact ⟨l₁, l₂, hp, (h.ring.link l₁ l₂ hp.1).1⟩

/-- **What an update does.** -/
theorem update_step (hl : looks (s.loc t) = none) (hn : stepThread t s = some s') : Inv s' := by
  have ht := h.loc t
  unfold stepThread at hn
  cases hx : s.loc t with
  | noMem addr iface =>
    simp only [hx, Option.some.injEq] at hn
    subst hn
    exact h.decided (by rw [hx]; rfl) rfl rfl (by rw [hx]; rfl) fun _ => trivial
  | addLock addr iface rep =>
    rw [hx] at ht
    simp only [hx] at hn
    exact h.takes hn (by rw [hx]; rfl) rfl fun _ => ht
  | addLink addr iface rep =>
    simp only [hx, Option.some.injEq] at hn
    subst hn
    exact h.link_step hx
  | addUnlock =>
    simp only [hx, Option.some.injEq] at hn
    subst hn
    exact h.drops (by rw [hx]; rfl) (by rw [hx]; rfl) rfl fun _ => trivial
  | delLock addr =>
    simp only [hx] at hn
    exact h.takes hn (by rw [hx]; rfl) rfl fun _ => ⟨[], live, ⟨rfl, nofun⟩, rfl⟩
  | delNext addr c =>
    obtain ⟨l₁, l₂, hp, hnext⟩ := h.del_next hx
    simp only [hx] at hn
    cases l₂ with
    | nil =>
      simp only [hnext, first_nil, Option.some.injEq] at hn
      subst hn
      exact h.decided (by rw [hx]; rfl) hp.none rfl (by rw [hx]; rfl) fun _ => trivial
    | cons rep l₂ =>
      simp only [hnext, first_cons, Option.some.injEq] at hn
      subst hn
      exact h.goto (by rw [hx]; rfl) (by rw [hx]; rfl) ⟨l₁, l₂, hp⟩
  | delAddr addr rep =>
    rw [hx] at ht
    obtain ⟨l₁, l₂, hp⟩ := ht
    simp only [hx, Option.some.injEq] at hn
    subst hn
    split
    · rename_i ha
      exact h.goto (by rw [hx]; rfl) (by rw [hx]; rfl) ⟨⟨l₁, l₂, hp⟩, ha⟩
    · rename_i ha
      refine h.goto (by rw [hx]; rfl) (by rw [hx]; rfl) ⟨l₁ ++ [rep], l₂, ⟨by rw [hp.1]; simp, fun a hm => ?_⟩, ?_⟩
      · rcases List.mem_append.mp hm with hm | hm
        · exact hp.2 a hm
        · rw [List.mem_singleton.mp hm]
          exact ha
      · rw [last_append_cons, last_nil]
  | delUnlink addr rep =>
    simp only [hx, Option.some.injEq] at hn
    subst hn
    exact h.unlink_step hx
  | delUnlock rep =>
    rw [hx] at ht
    cases rep with
    | none =>
      simp only [hx, Option.some.injEq] at hn
      subst hn
      exact h.drops (by rw [hx]; rfl) (by rw [hx]; rfl) rfl fun _ => trivial
    | some rep =>
      simp only [hx, Option.some.injEq] at hn
      subst hn
      exact h.drops (by rw [hx]; rfl) (by rw [hx]; rfl) rfl fun _ => ht
  | callRcu rep =>
    rw [hx] at ht
    simp only [hx, Option.some.injEq] at hn
    subst hn
    exact h.same saw rfl rfl (table_update (by rw [ht]; nofun) nofun) (h.lock.stay rfl (by rw [hx]; rfl))
      (h.freed_update .queued (by rw [ht]; nofun) (by rw [ht]; nofun)) (fun u hu => .queue ht hu id)
      (fun _ _ _ => id) trivial (h.seen.stay rfl (by rw [hx]; rfl))
  | ret v =>
    simp only [hx, Option.some.injEq] at hn
    subst hn
    exact h.returns (.inl (by rw [hx]; rfl)) (by rw [hx]; rfl)
  | idle | aborted =>
    simp only [hx] at hn
    cases hn
  | _ =>
    rw [hx] at hl
    cases hl

/-- An entry is allocated, and `route_add` goes on. -/
theorem alloc_step (hidle : s.loc t = .idle) (hs : s.status rep = .unused) :
    Inv ((s.setHeap (s.toHeap.alloc t rep addr iface)).call t (.add addr iface true) (.addLock addr iface rep)) := by
  have hrows : (s.toHeap.alloc t rep addr iface).rows live = s.rows live := by
    refine List.map_congr_left fun a ha => ?_
    have hne : a ≠ rep := fun hx => h.used ha (hx ▸ hs)
    show (Function.update s.addr rep addr a, Function.update s.iface rep iface a) = _
    rw [Function.update_of_ne hne, Function.update_of_ne hne]
  refine h.same (Seen.others saw t) rfl rfl (table_update (by rw [hs]; nofun) nofun)
    (h.lock.stay rfl (by rw [hidle]; rfl)) (fun a ha => ?_) (fun _ _ => .alloc hs) (fun _ hu _ hv => ⟨hu, hv⟩)
    ⟨Function.update_self .., Function.update_self .., Function.update_self ..⟩ ?_
  · have hne : a ≠ rep := by
      rintro rfl
      have ha : Function.update s.freed a false a = true := ha
      rw [Function.update_self] at ha
      cases ha
    have hfreed := h.freed a (by rwa [← Function.update_of_ne hne false s.freed])
    show Function.update s.status rep (.own t) a = .unused ∨ Function.update s.status rep (.own t) a = .freeing
    rwa [Function.update_of_ne hne]
  · show Seen routes _ _ _ ((s.toHeap.alloc t rep addr iface).rows live)
    rw [hrows]
    exact h.seen.called rfl (fun _ _ => id) (by rw [hidle]; rfl) rfl

/-- **What `route_cb` does.** -/
theorem cb_step (hn : stepCb rep s = some s') : Inv s' := by
  have hloc : ∀ {m'}, (∀ u, Kept s.toHeap m' u (s.loc u)) → m'.links = s.links → ∀ u,
      LocInv m' live (Observed saw (s.setHeap m') live u) u (s.loc u) := fun hk hlinks u =>
    (h.loc u).step (hk u) (fun a => h.used) (fun _ => .inl) (fun hr _ _ _ => (hk u).look hr hlinks fun _ => .inl) (.inl rfl)
  unfold stepCb at hn
  cases hs : s.status rep with
  | queued =>
    simp only [hs, Option.ite_none_right_eq_some, Option.some.injEq] at hn
    obtain ⟨hw, rfl⟩ := hn
    refine .observed h.ring (fun a => (h.table a).trans (table_update (x := .freeing) (by rw [hs]; nofun) nofun a).symm) h.lock
      (fun a ha => ?_) (hloc (fun _ => .mark hs hw) rfl) h.seen
    show Function.update s.status rep .freeing a = .unused ∨ Function.update s.status rep .freeing a = .freeing
    by_cases har : a = rep
    · rw [har, Function.update_self]
      exact .inr rfl
    · rw [Function.update_of_ne har]
      exact h.freed a (by rwa [← Function.update_of_ne har true s.freed])
  | freeing =>
    simp only [hs, Option.some.injEq] at hn
    subst hn
    refine .observed h.ring (fun a => (h.table a).trans (table_update (x := .unused) (by rw [hs]; nofun) nofun a).symm) h.lock
      (fun a ha => ?_) (hloc (fun _ => .free hs) rfl) h.seen
    show Function.update s.status rep .unused a = .unused ∨ Function.update s.status rep .unused a = .freeing
    by_cases har : a = rep
    · rw [har, Function.update_self]
      exact .inl rfl
    · rw [Function.update_of_ne har]
      exact h.freed a ha
  | _ =>
    simp only [hs] at hn
    cases hn

/-- An entry that a call is going to access is allocated, and not marked as freed. -/
theorem uses (hl : uses (s.loc t) = some a) : s.status a ≠ .unused ∧ s.freed a = false := by
  have hof : s.status a ≠ .unused ∧ s.status a ≠ .freeing → s.status a ≠ .unused ∧ s.freed a = false := fun hs =>
    ⟨hs.1, by rw [← Bool.not_eq_true]; exact fun hf => (h.freed a hf).elim hs.1 hs.2⟩
  have hsafe : Safe s.toHeap t a → s.status a ≠ .unused ∧ s.status a ≠ .freeing := fun hx =>
    ⟨hx.used, fun hf => by
      unfold Safe at hx
      rw [hf] at hx
      rcases hx with hx | ⟨v, hx⟩ | ⟨hx, -⟩ <;> cases hx⟩
  have hmem : a ∈ live → s.status a ≠ .unused ∧ s.status a ≠ .freeing := fun hx => hsafe (.inl ((h.table a).mp hx))
  have ht := h.loc t
  refine hof ?_
  cases hx : s.loc t with
  | readNext addr c =>
    rw [hx] at hl ht
    cases c with
    | head => cases hl
    | entry rep =>
      obtain rfl := Option.some.inj hl
      exact hsafe ht.2.safe
  | readAddr addr rep =>
    rw [hx] at hl ht
    obtain rfl := Option.some.inj hl
    exact hsafe ht.safe
  | readIface addr rep | readFreed addr rep ret =>
    rw [hx] at hl ht
    obtain rfl := Option.some.inj hl
    exact hsafe ht.1
  | addLink addr iface rep =>
    rw [hx] at hl ht
    obtain rfl := Option.some.inj hl
    rw [ht.1]
    exact ⟨nofun, nofun⟩
  | delNext addr c =>
    rw [hx] at hl ht
    cases c with
    | head => cases hl
    | entry rep =>
      obtain rfl := Option.some.inj hl
      obtain ⟨l₁, l₂, hp, hc⟩ := ht
      rcases last_mem (f := Cell.entry) (h := .head) (l := l₁) with hlast | ⟨b, hb, hlast⟩
      · exact absurd (hc.trans hlast) (entry_ne_head rep)
      · obtain rfl := entry_injective (hc.trans hlast)
        exact hmem (by rw [hp.1]; exact List.mem_append_left _ hb)
  | delAddr addr rep =>
    rw [hx] at hl ht
    obtain rfl := Option.some.inj hl
    obtain ⟨l₁, l₂, hp⟩ := ht
    exact hmem (by rw [hp.1]; simp)
  | delUnlink addr rep =>
    rw [hx] at hl ht
    obtain rfl := Option.some.inj hl
    obtain ⟨⟨l₁, l₂, hp⟩, -⟩ := ht
    exact hmem (by rw [hp.1]; simp)
  | callRcu rep =>
    rw [hx] at hl ht
    obtain rfl := Option.some.inj hl
    have ht : s.status rep = .removed t := ht
    rw [ht]
    exact ⟨nofun, nofun⟩
  | _ =>
    rw [hx] at hl
    cases hl

theorem holds : Holds s where
  lin := by
    obtain ⟨S, hl⟩ := h.seen.lin _ fun _ => .inl rfl
    exact ⟨live, S, h.ring, h.table, hl⟩
  uses _ _ := h.uses
  noAbort t hx := by
    have ht := h.loc t
    rwa [hx] at ht

end InvOf

/-! ### Runs -/

/-- **A step keeps the invariant.** -/
theorem inv_next {a : Act n} (h : Inv s) (hn : next a s = some s') : Inv s' := by
  obtain ⟨live, saw, h⟩ := h
  cases a with
  | lookup t addr =>
    simp only [next, Option.ite_none_right_eq_some, Option.some.injEq] at hn
    obtain ⟨hidle, rfl⟩ := hn
    exact h.calls hidle rfl rfl fun _ => trivial
  | add t addr iface rep =>
    cases rep with
    | none =>
      simp only [next, Option.ite_none_right_eq_some, Option.some.injEq] at hn
      obtain ⟨hidle, rfl⟩ := hn
      exact h.calls hidle rfl rfl fun _ => trivial
    | some rep =>
      simp only [next, Option.ite_none_right_eq_some, Option.some.injEq] at hn
      obtain ⟨⟨hidle, hs⟩, rfl⟩ := hn
      exact h.alloc_step hidle hs
  | del t addr =>
    simp only [next, Option.ite_none_right_eq_some, Option.some.injEq] at hn
    obtain ⟨hidle, rfl⟩ := hn
    exact h.calls hidle rfl rfl fun _ => trivial
  | step t =>
    cases hl : looks (s.loc t) with
    | none => exact h.update_step hl hn
    | some addr => exact h.lookup_step hl hn
  | cb rep => exact h.cb_step hn

theorem inv_init (h : Init s) : Inv s := by
  refine ⟨[], fun _ _ => False, .nil h.next h.prev, fun a => ?_, fun t => ?_, fun a _ => .inl (h.status a),
    fun t addr hl => ?_, fun t => ?_, ?_⟩
  · rw [h.status a]
    exact iff_of_false List.not_mem_nil nofun
  · rw [h.routelock, h.loc t]
    exact iff_of_false nofun nofun
  · rw [h.loc t] at hl
    cases hl
  · rw [h.loc t]
    trivial
  · have hpend : (fun t => pend (s.loc t)) = fun _ => .idle := funext fun t => by rw [h.loc t]; rfl
    rw [h.hist, hpend]
    exact Seen.start routes

/-- **`route_rcu.c` is linearizable**, and no call comes to an entry that was freed. -/
theorem routes_linearizable (h : (sys n).Reach Sys.always s) : Holds s := by
  obtain ⟨live, saw, h⟩ := h.inv (I := Inv) (fun _ => inv_init) fun _ _ _ h _ hn => inv_next h hn
  exact h.holds

/-- No entry is allocated. -/
def start (n : ℕ) : St n where
  links := ⟨fun c => c, fun c => c⟩
  addr := fun _ => 0
  iface := fun _ => 0
  freed := fun _ => true
  status := fun _ => .unused
  wait := fun _ _ => false
  routelock := none
  loc := fun _ => .idle
  hist := []

theorem init_start (n : ℕ) : Init (start n) := ⟨rfl, rfl, fun _ => rfl, rfl, fun _ => rfl, rfl⟩

/-- A lookup stands on an entry that is unlinked, and its memory is used again when the lookup has returned. -/
theorem routes_linearizable_reuse : ∃ s : St 2, (sys 2).Reach Sys.always s ∧
    results s.hist = [(0, 0), (0, 0), (1, 10), (0, 0), (1, 20)] ∧ s.links.next .head = .entry 5 ∧ Holds s := by
  have hrun : ((sys 2).run Sys.always (
      [.add 0 1 10 (some 5)] ++ List.replicate 4 (.step 0) ++
      [.lookup 1 1] ++ List.replicate 3 (.step 1) ++ [.del 0 1] ++ List.replicate 7 (.step 0) ++
      List.replicate 4 (.step 1) ++ [.cb 5, .cb 5, .add 0 2 20 (some 5)] ++ List.replicate 4 (.step 0) ++
      [.lookup 1 2] ++ List.replicate 7 (.step 1)) (start 2)).map
      (fun s => (results s.hist, s.links.next .head)) =
        some ([(0, 0), (0, 0), (1, 10), (0, 0), (1, 20)], .entry 5) := by
    decide +kernel
  obtain ⟨s, hs, hend⟩ := Option.map_eq_some_iff.mp hrun
  have hreach := Sys.run_reach (.init (init_start 2)) hs
  rw [Prod.mk.injEq] at hend
  exact ⟨s, hreach, hend.1, hend.2, routes_linearizable hreach⟩

end RouteRcu
end Perfbook
