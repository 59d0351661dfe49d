/-
# `hash_bkt_rcu.c` is linearizable

The map changes where an element is linked or unlinked, under the lock of its bucket; a lookup
returns what the map has had for its key at some instant of its call. It comes to no element
that was freed, though `malloc` hands out elements again, and keeps to its bucket.

Key definitions: `Observed`, `Plain`.
Key theorems: `InvOf.of_step`, `inv_next`, `table_linearizable`.
-/
import Mathlib.Data.List.Find
import Perfbook.Hash.BktRcuInv

namespace Perfbook
namespace Hash
namespace BktRcu

open Conc

variable {n : ℕ} {K : Type} [DecidableEq K] {htp : Hashtab K} {m m' : Heap n K} {s s' : St n K}
  {live live' : ℕ → List ℕ} {l₁ l₂ : List ℕ} {saw saw₁ : Fin n → TableRes → Prop} {t u : Fin n} {l : Loc K} {key : K}
  {zhep a b : ℕ} {c : Cell} {o : TableOp K} {r : Option ℕ} {v : TableRes}

variable (htp) in
/-- What lookups saw, and what they see now. -/
def Observed (saw : Fin n → TableRes → Prop) (s : St n K) (live : ℕ → List ℕ) (u : Fin n) (v : TableRes) : Prop :=
  saw u v ∨ ∃ key, looks (s.loc u) = some key ∧ v = .found (s.toHeap.lookup htp live key)

variable (htp) in
/-- The invariant. -/
def Inv (s : St n K) : Prop := ∃ live saw, InvOf htp s live saw

omit [DecidableEq K] in
theorem pend_of_looks (h : looks l = some key) : pend l = .called (.lookup key) := by
  unfold looks at h
  split at h
  · rename_i hp
    rw [hp, Option.some.inj h]
  · cases h

/-- A step that links and unlinks nothing. -/
structure Plain (m m' : Heap n K) : Prop where
  links : m'.links = m.links
  table : ∀ a t, m'.status a = .table t ↔ m.status a = .table t
  key : ∀ a, m.status a ≠ .unused → m'.key a = m.key a
  added : ∀ a, (m'.status a).added = true → (m.status a).added = true ∧ m'.hteHash a = m.hteHash a

namespace InvOf

variable (h : InvOf htp s live saw)
include h

theorem live_table (b : ℕ) (a : ℕ) (ha : a ∈ live b) : ∃ v, s.status a = .table v := ((h.table b a).mp ha).1

theorem used (ha : a ∈ live b) : s.status a ≠ .unused := used_of_live h.live_table ha

variable (live' saw₁) in
/-- A thread takes a step that the others do not see from where they are. -/
theorem of_step (hloc : s'.loc = Function.update s.loc t l)
    (hring : ∀ b, Ring Cell.elem (.head b) s'.links (live' b))
    (htable : ∀ b a, a ∈ live' b ↔ (∃ t, s'.status a = .table t) ∧ htp.bkt (s'.key a) = b)
    (honce : ∀ a b t u, s'.status a = .table t → s'.status b = .table u → s'.key a = s'.key b → a = b)
    (hhash : ∀ a, (s'.status a).added = true → s'.hteHash a = htp.hash (s'.key a))
    (hlock : LocksBy True (held htp) s'.lock s'.loc)
    (hk : ∀ u, u ≠ t → Kept s.toHeap s'.toHeap u (s.loc u)) (hsaw : ∀ u, u ≠ t → ∀ v, saw u v → saw₁ u v)
    (hlook : ∀ u, u ≠ t → (s.loc u).reads = true → ∀ key c, looks (s.loc u) = some key →
      Look htp s.toHeap u (saw u) key c → Look htp s'.toHeap u (Observed htp saw₁ s' live' u) key c)
    (hwalk : ∀ b, live' b = live b ∨ held htp (s.loc t) b)
    (hl : LocInv htp s'.toHeap live' (Observed htp saw₁ s' live' t) t l)
    (hseen : Seen (BktRcu.table K) s'.hist (fun t => pend (s'.loc t)) saw₁ (s'.toHeap.lookup htp live')) :
    Inv htp s' := by
  refine ⟨live', Observed htp saw₁ s' live', hring, htable, honce, hhash, hlock, fun _ key ha => .inr ⟨key, ha, rfl⟩, ?_,
    hseen.observe fun _ _ hr => hr.imp_right fun ⟨key, ha, hv⟩ => ⟨.lookup key, pend_of_looks ha, fun _ => rfl, hv⟩⟩
  refine forall_update (P := fun u x => LocInv htp s'.toHeap live' (Observed htp saw₁ s' live' u) u x) hloc hl
    fun u hu => ?_
  refine (h.loc u).step (hk u hu) h.live_table (fun v hv => .inl (hsaw u hu v hv)) (hlook u hu) fun key hkey => ?_
  exact (hwalk (htp.bkt key)).resolve_right fun ht => hu (h.lock.eq ht ⟨key, hkey, rfl⟩)

variable (hp : Plain s.toHeap s'.toHeap)
include hp

theorem lookup_plain : s'.toHeap.lookup htp live = s.toHeap.lookup htp live := by
  funext key
  refine List.find?_congr fun a ha => ?_
  rw [hp.key a (h.used ha)]

variable (saw₁) in
/-- The buckets are as they were. -/
theorem same (hloc : s'.loc = Function.update s.loc t l) (hlock : LocksBy True (held htp) s'.lock s'.loc)
    (hk : ∀ u, u ≠ t → Kept s.toHeap s'.toHeap u (s.loc u)) (hsaw : ∀ u, u ≠ t → ∀ v, saw u v → saw₁ u v)
    (hl : LocInv htp s'.toHeap live (Observed htp saw₁ s' live t) t l)
    (hseen : Seen (BktRcu.table K) s'.hist (fun t => pend (s'.loc t)) saw₁ (s.toHeap.lookup htp live)) : Inv htp s' := by
  have hkey : ∀ {a t}, s'.status a = .table t → s.status a = .table t ∧ s'.key a = s.key a := fun {a t} ha =>
    have hs := (hp.table a t).mp ha
    ⟨hs, hp.key a (by rw [hs]; nofun)⟩
  refine h.of_step live saw₁ hloc (hp.links ▸ h.ring) (fun b a => (h.table b a).trans ⟨?_, ?_⟩) (fun a b t u ha hb hab => ?_)
    (fun a ha => ?_) hlock hk hsaw (fun u hu hr key c _ => ?_) (fun _ => .inl rfl) hl
    ((h.lookup_plain hp).symm ▸ hseen)
  · rintro ⟨⟨t, hs⟩, hb⟩
    exact ⟨⟨t, (hp.table a t).mpr hs⟩, by rwa [hp.key a (by rw [hs]; nofun)]⟩
  · rintro ⟨⟨t, hs⟩, hb⟩
    exact ⟨⟨t, (hkey hs).1⟩, (hkey hs).2 ▸ hb⟩
  · rw [(hkey ha).2, (hkey hb).2] at hab
    exact h.once a b t u (hkey ha).1 (hkey hb).1 hab
  · obtain ⟨hadd, hx⟩ := hp.added a ha
    rw [hx, h.hash a hadd, hp.key a (fun hu => by rw [hu] at hadd; cases hadd)]
  · exact (hk u hu).look hr (fun v hv => .inl (hsaw u hu v hv)) fun a _ => by rw [hp.links]

end InvOf

/-! ### Steps in general -/

section Plain

omit [DecidableEq K]

theorem Plain.refl (m : Heap n K) : Plain m m := ⟨rfl, fun _ _ => .rfl, fun _ _ => rfl, fun _ ha => ⟨ha, rfl⟩⟩

/-- An element that is not in a bucket goes on. -/
theorem Plain.of_status {x : Status n} (hlinks : m'.links = m.links) (hhash : m'.hteHash = m.hteHash)
    (hstatus : m'.status = Function.update m.status zhep x)
    (hkey : ∀ a, m.status a ≠ .unused → m'.key a = m.key a)
    (hs : ∀ t, m.status zhep ≠ .table t) (hx : ∀ t, x ≠ .table t)
    (hadd : x.added = true → (m.status zhep).added = true) : Plain m m' where
  links := hlinks
  table a t := by
    rw [hstatus]
    by_cases ha : a = zhep
    · rw [ha, Function.update_self]
      exact iff_of_false (hx t) (hs t)
    · rw [Function.update_of_ne ha]
  key := hkey
  added a ha := by
    refine ⟨?_, by rw [hhash]⟩
    rw [hstatus] at ha
    by_cases haz : a = zhep
    · rw [haz, Function.update_self] at ha
      exact haz ▸ hadd ha
    · rwa [Function.update_of_ne haz] at ha

theorem Plain.alloc (hs : m.status zhep = .unused) : Plain m (m.alloc t zhep key) := by
  refine .of_status rfl rfl rfl (fun a ha => ?_) (fun _ => by rw [hs]; nofun) (fun _ => nofun) nofun
  have haz : a ≠ zhep := fun hx => ha (hx ▸ hs)
  exact Function.update_of_ne haz ..

theorem Plain.setHash {hash : ℕ} (hs : m.status zhep = .own t) : Plain m (m.setHash zhep hash) where
  links := rfl
  table _ _ := .rfl
  key _ _ := rfl
  added a ha := by
    have haz : a ≠ zhep := by
      rintro rfl
      have ha : (m.status a).added = true := ha
      rw [hs] at ha
      cases ha
    exact ⟨ha, Function.update_of_ne haz ..⟩

theorem Plain.queue {reads : Fin n → Bool} (hs : m.status zhep = .removed t) : Plain m (m.queue zhep reads) :=
  .of_status rfl rfl rfl (fun _ _ => rfl) (fun _ => by rw [hs]; nofun) (fun _ => nofun) fun _ => by rw [hs]; rfl

theorem Plain.free (hs : m.status zhep = .queued) : Plain m (m.setStatus zhep .unused) :=
  .of_status rfl rfl rfl (fun _ _ => rfl) (fun _ => by rw [hs]; nofun) (fun _ => nofun) nofun

end Plain

namespace InvOf

variable (h : InvOf htp s live saw)
include h

/-- A thread goes on with the lock it has. -/
theorem goto (hp : pend l = pend (s.loc t)) (hL : l.locked = (s.loc t).locked)
    (hl : ∀ saw', (∀ v, saw t v → saw' v) → LocInv htp s.toHeap live saw' t l) : Inv htp (s.goto t l) := by
  refine h.same saw (.refl _) rfl (h.lock.keep rfl fun b => ?_) (fun _ _ => .refl ..) (fun _ _ _ => id)
    (hl _ fun _ => .inl) (h.seen.stay rfl hp)
  unfold held
  rw [hL]

/-- The map is not changed, and the call has taken effect. -/
theorem decided (ho : pend (s.loc t) = .called o)
    (ha : (BktRcu.table K).apply o (s.toHeap.lookup htp live) = (s.toHeap.lookup htp live, v))
    (hp : pend l = .done v) (hL : l.locked = (s.loc t).locked) (hl : ∀ saw, LocInv htp s.toHeap live saw t l) :
    Inv htp (s.goto t l) := by
  refine h.same (Seen.others saw t) (.refl _) rfl (h.lock.keep rfl fun b => ?_) (fun _ _ => .refl ..)
    (fun _ hu _ hv => ⟨hu, hv⟩) (hl _) (h.seen.effect rfl (fun _ _ => id) ho ha hp)
  unfold held
  rw [hL]

/-- A thread takes the lock of a bucket. -/
theorem takes (hn : s.lockMod t (htp.bkt key) l = some s') (hp : pend l = pend (s.loc t))
    (ht : (s.loc t).locked = none) (hL : l.locked = some key) (hl : ∀ saw, LocInv htp s.toHeap live saw t l) :
    Inv htp s' := by
  unfold St.lockMod at hn
  split at hn
  · rename_i hfree
    obtain rfl := Option.some.inj hn
    refine h.same saw (.refl _) rfl (h.lock.take rfl (fun u => h.lock.not_held hfree) fun b => ?_) (fun _ _ => .refl ..)
      (fun _ _ _ => id) (hl _) (h.seen.stay rfl hp)
    unfold held
    rw [ht, hL]
    simp [eq_comm]
  · cases hn

/-- A thread releases the lock of a bucket. -/
theorem drops (ht : (s.loc t).locked = some key) (hp : pend l = pend (s.loc t)) (hL : l.locked = none)
    (hl : ∀ saw, LocInv htp s.toHeap live saw t l) : Inv htp (s.unlockMod t (htp.bkt key) l) := by
  refine h.same saw (.refl _) rfl (h.lock.drop rfl ⟨key, ht, rfl⟩ fun b => ?_) (fun _ _ => .refl ..) (fun _ _ _ => id)
    (hl _) (h.seen.stay rfl hp)
  unfold held
  rw [ht, hL]
  simp [eq_comm]

/-- A call begins. -/
theorem calls (hidle : s.loc t = .idle) (hp : pend l = .called o) (hL : l.locked = none)
    (hl : ∀ saw, LocInv htp s.toHeap live saw t l) : Inv htp (s.call t o l) := by
  refine h.same (Seen.others saw t) (.refl _) rfl (h.lock.keep rfl fun b => ?_)
    (fun _ _ => .refl ..) (fun _ hu _ hv => ⟨hu, hv⟩) (hl _)
    (h.seen.called rfl (fun _ _ => id) (by rw [hidle]; rfl) hp)
  unfold held
  rw [hidle, hL]
  rfl

/-- A call ends. -/
theorem returns (hp : pend (s.loc t) = .done v ∨ saw t v) (hL : (s.loc t).locked = none) : Inv htp (s.return' t v) := by
  refine h.same (Seen.others saw t) (.refl _) rfl (h.lock.keep rfl fun b => ?_) (fun _ _ => .refl ..)
    (fun _ hu _ hv => ⟨hu, hv⟩) trivial ?_
  · unfold held
    rw [hL]
    rfl
  · rcases hp with hp | hv
    · exact h.seen.returned rfl (fun _ _ => id) hp rfl
    · exact h.seen.answered rfl (fun _ _ => id) hv rfl

/-! ### Lookups -/

/-- A lookup begins to walk. -/
theorem look_head (hl : looks (s.loc t) = some key) :
    Look htp s.toHeap t (saw t) key (s.links.next (.head (htp.bkt key))) := by
  refine ⟨_, ?_, h.now t key hl⟩
  rw [(h.ring (htp.bkt key)).next_head]
  refine Finds.of_ring [] (h.ring (htp.bkt key)) fun a ha => ?_
  obtain ⟨hs, hb⟩ := (h.table _ a).mp ha
  exact ⟨.inl hs, hb⟩

theorem look_next (hl : s.loc t = .readNext key c) : Look htp s.toHeap t (saw t) key (s.links.next c) := by
  have ht := h.loc t
  rw [hl] at ht
  cases c with
  | head b =>
    obtain rfl : b = htp.bkt key := ht
    exact h.look_head (by rw [hl]; rfl)
  | elem htep =>
    obtain ⟨hne, r, hr, hv⟩ := ht
    obtain ⟨-, ⟨hs, -⟩ | ⟨-, hr⟩⟩ := hr.at_cell elem_injective (elem_ne_head _)
    · exact absurd (beq_iff_eq.mp hs) hne
    · exact ⟨r, hr, hv⟩

end InvOf

theorem Look.mono {saw₁ saw₁' : TableRes → Prop} (hsaw : ∀ v, saw₁ v → saw₁' v) (h : Look htp m t saw₁ key c) :
    Look htp m t saw₁' key c := by
  obtain ⟨r, hr, hv⟩ := h
  exact ⟨r, hr, hsaw _ hv⟩

/-- A search is at the head of its bucket, or at an element. -/
theorem Look.cell {saw₁ : TableRes → Prop} (h : Look htp m t saw₁ key c) :
    (c = .head (htp.bkt key) ∧ saw₁ (.found none)) ∨ ∃ a, c = .elem a := by
  obtain ⟨r, hr, hv⟩ := h
  cases hr with
  | stop => exact .inl ⟨rfl, hv⟩
  | hit => exact .inr ⟨_, rfl⟩
  | go => exact .inr ⟨_, rfl⟩

namespace InvOf

variable (h : InvOf htp s live saw)
include h

/-- **What a lookup does.** -/
theorem lookup_step (hl : looks (s.loc t) = some key) (hn : stepThread htp t s = some s') : Inv htp s' := by
  have ht := h.loc t
  unfold stepThread at hn
  cases hx : s.loc t with
  | readLock key =>
    simp only [hx, Option.some.injEq] at hn
    subst hn
    exact h.goto (by rw [hx]; rfl) (by rw [hx]; rfl) fun _ _ => rfl
  | readNext key c =>
    have hlook := h.look_next hx
    simp only [hx, Option.some.injEq] at hn
    subst hn
    rcases hlook.cell with ⟨hc, hv⟩ | ⟨a, hc⟩
    · rw [hc, walk, if_pos rfl]
      exact h.goto (by rw [hx]; rfl) (by rw [hx]; rfl) fun _ hsaw => hsaw _ hv
    · rw [hc] at hlook ⊢
      exact h.goto (by rw [hx]; rfl) (by rw [hx]; rfl) fun _ hsaw => hlook.mono hsaw
  | readHash key htep =>
    rw [hx] at ht
    simp only [hx, Option.some.injEq] at hn
    subst hn
    split
    · exact h.goto (by rw [hx]; rfl) (by rw [hx]; rfl) fun _ hsaw => Look.mono hsaw ht
    · rename_i hne
      refine h.goto (by rw [hx]; rfl) (by rw [hx]; rfl) fun _ hsaw => ⟨fun hkey => hne ?_, Look.mono hsaw ht⟩
      rw [h.hash htep ht.near.1.added, hkey]
  | readKey key htep =>
    rw [hx] at ht
    simp only [hx, Option.some.injEq] at hn
    subst hn
    split
    · rename_i hkey
      obtain ⟨r, hr, hv⟩ := ht
      obtain ⟨hnear, hor⟩ := hr.at_cell elem_injective (elem_ne_head _)
      obtain ⟨-, rfl⟩ := hor.resolve_right fun hne => by
        have := hne.1
        rw [Heap.has, hkey, beq_self_eq_true] at this
        cases this
      exact h.goto (by rw [hx]; rfl) (by rw [hx]; rfl) fun _ hsaw => ⟨hkey, hnear.1, hsaw _ hv⟩
    · rename_i hne
      exact h.goto (by rw [hx]; rfl) (by rw [hx]; rfl) fun _ hsaw => ⟨hne, Look.mono hsaw ht⟩
  | readCheck key htep =>
    rw [hx] at ht
    obtain ⟨hkey, hsafe, hv⟩ := ht
    have hhash : s.hteHash htep = htp.hash key := by rw [h.hash htep hsafe.added, hkey]
    simp only [hx, hhash, if_pos, Option.some.injEq] at hn
    subst hn
    exact h.goto (by rw [hx]; rfl) (by rw [hx]; rfl) fun _ hsaw => ⟨hkey, hsafe, hsaw _ hv⟩
  | readName key htep =>
    rw [hx] at ht
    obtain ⟨hkey, -, hv⟩ := ht
    simp only [hx, hkey, if_pos, Option.some.injEq] at hn
    subst hn
    exact h.goto (by rw [hx]; rfl) (by rw [hx]; rfl) fun _ hsaw => hsaw _ hv
  | readUnlock key r =>
    rw [hx] at ht
    simp only [hx, Option.some.injEq] at hn
    subst hn
    refine h.same saw ⟨rfl, fun _ _ => .rfl, fun _ _ => rfl, fun _ ha => ⟨ha, rfl⟩⟩ rfl (h.lock.keep rfl fun b => ?_)
      (fun u hu => .unlock hu) (fun _ _ _ => id) (.inl ht) (h.seen.stay rfl (by rw [hx]; rfl))
    unfold held
    rw [hx]
    rfl
  | readRet key r =>
    rw [hx] at ht
    simp only [hx, Option.some.injEq] at hn
    subst hn
    exact h.returns (.inr ht) (by rw [hx]; rfl)
  | _ =>
    rw [hx] at hl
    cases hl

end InvOf

/-! ### The buckets -/

omit [DecidableEq K] in
theorem Passed.not_mem (h : Passed htp m live key l₁ []) : ∀ a ∈ live (htp.bkt key), m.key a ≠ key := by
  rw [h.1, List.append_nil]
  exact h.2

theorem Passed.lookup (h : Passed htp m live key l₁ []) : m.lookup htp live key = none :=
  List.find?_eq_none.mpr fun a ha => by simp [h.not_mem a ha]

/-- A linked element is what its key is mapped to. -/
theorem lookup_link (hkey : m.key zhep = key) :
    (m.link t b zhep).lookup htp (Function.update live (htp.bkt key) (zhep :: live (htp.bkt key))) =
      Function.update (m.lookup htp live) key (some zhep) := by
  funext k
  unfold Heap.lookup
  by_cases hb : htp.bkt k = htp.bkt key
  · rw [hb, Function.update_self]
    by_cases hk : k = key
    · rw [hk, Function.update_self]
      exact List.find?_cons_of_pos (beq_iff_eq.mpr hkey)
    · rw [Function.update_of_ne hk, List.find?_cons_of_neg, hb]
      · rfl
      · show ¬ (m.key zhep == k) = true
        rw [hkey, beq_iff_eq]
        exact fun hx => hk hx.symm
  · have hk : k ≠ key := fun hk => hb (congrArg htp.bkt hk)
    rw [Function.update_of_ne hb, Function.update_of_ne hk]
    rfl

/-- The key of an unlinked element is mapped to none. -/
theorem lookup_unlink (hlive : live (htp.bkt key) = l₁ ++ zhep :: l₂) (hkey : m.key zhep = key)
    (hne : ∀ a ∈ l₁ ++ l₂, m.key a ≠ key) :
    (m.unlink t zhep).lookup htp (Function.update live (htp.bkt key) (l₁ ++ l₂)) =
      Function.update (m.lookup htp live) key none := by
  funext k
  unfold Heap.lookup
  by_cases hb : htp.bkt k = htp.bkt key
  · rw [hb, Function.update_self]
    by_cases hk : k = key
    · rw [hk, Function.update_self]
      refine List.find?_eq_none.mpr fun a ha => ?_
      show ¬ (m.key a == key) = true
      rw [beq_iff_eq]
      exact hne a ha
    · rw [Function.update_of_ne hk, hb, hlive, List.find?_append, List.find?_append, List.find?_cons_of_neg]
      · rfl
      · rw [hkey, beq_iff_eq]
        exact fun hx => hk hx.symm
  · have hk : k ≠ key := fun hk => hb (congrArg htp.bkt hk)
    rw [Function.update_of_ne hb, Function.update_of_ne hk]
    rfl

namespace InvOf

variable (h : InvOf htp s live saw)
include h

/-- An element is in one bucket. -/
theorem not_mem_of_ne (ha : a ∈ live b) {b' : ℕ} (hb : b' ≠ b) : a ∉ live b' := fun hm =>
  hb (((h.table b' a).mp hm).2.symm.trans ((h.table b a).mp ha).2)

/-! ### Updates -/

/-- **An element is added.** -/
theorem link_step (hl : s.loc t = .addLink key zhep) :
    Inv htp ((s.setHeap (s.toHeap.link t (htp.bkt key) zhep)).goto t (.addUnlock key)) := by
  have ht := h.loc t
  rw [hl] at ht
  obtain ⟨⟨hs, hkey⟩, ⟨l₁, hp⟩, hhash⟩ := ht
  have hmem : ∀ b, zhep ∉ live b := fun b hm => by
    obtain ⟨v, hv⟩ := h.live_table b zhep hm
    rw [hs] at hv
    cases hv
  have hstatus : ∀ a, a ≠ zhep → (s.toHeap.link t (htp.bkt key) zhep).status a = s.status a := fun a ha =>
    Function.update_of_ne ha ..
  have hself : (s.toHeap.link t (htp.bkt key) zhep).status zhep = .table t := Function.update_self ..
  have hnew : ∀ a v, s.status a = .table v → s.key a ≠ key := fun a v hv hx =>
    hp.not_mem a ((h.table _ a).mpr ⟨⟨v, hv⟩, by rw [hx]⟩) hx
  refine h.of_step (Function.update live (htp.bkt key) (zhep :: live (htp.bkt key)))
    (Seen.others saw t) rfl (fun b => ?_) (fun b a => ?_)
    (fun a a' v v' ha ha' haa => ?_) (fun a ha => ?_) (h.lock.keep rfl fun b => ?_) (fun _ hu => .link hs hu)
    (fun _ hu _ hv => ⟨hu, hv⟩) (fun u hu hreads key c _ hlook => ?_) (fun b => ?_) trivial ?_
  · by_cases hb : b = htp.bkt key
    · rw [hb, Function.update_self]
      exact (h.ring _).add elem_injective (elem_ne_head _) (hmem _)
    · rw [Function.update_of_ne hb]
      refine (h.ring b).congr ((h.ring _).add_frame (fun hx => hb (Cell.head.inj hx)) nofun nofun) fun a ha => ?_
      refine (h.ring _).add_frame nofun (fun hx => ?_) fun a' ha' hx => ?_
      · exact hmem b (elem_injective hx ▸ ha)
      · exact h.not_mem_of_ne ha' hb (elem_injective hx ▸ ha)
  · show a ∈ Function.update live (htp.bkt key) (zhep :: live (htp.bkt key)) b ↔
      (∃ v, (s.toHeap.link t (htp.bkt key) zhep).status a = .table v) ∧ htp.bkt (s.key a) = b
    by_cases haz : a = zhep
    · rw [haz, hself, hkey]
      by_cases hb : b = htp.bkt key
      · rw [hb, Function.update_self]
        exact iff_of_true List.mem_cons_self ⟨⟨t, rfl⟩, rfl⟩
      · rw [Function.update_of_ne hb]
        exact iff_of_false (hmem b) fun hx => hb hx.2.symm
    · rw [hstatus a haz, ← h.table b a]
      by_cases hb : b = htp.bkt key
      · rw [hb, Function.update_self, List.mem_cons]
        exact or_iff_right haz
      · rw [Function.update_of_ne hb]
  · change s.key a = s.key a' at haa
    by_cases haz : a = zhep
    · by_cases haz' : a' = zhep
      · rw [haz, haz']
      · refine absurd ?_ (hnew a' v' ((hstatus a' haz').symm.trans ha'))
        rw [← haa, haz, hkey]
    · have hv := (hstatus a haz).symm.trans ha
      by_cases haz' : a' = zhep
      · refine absurd ?_ (hnew a v hv)
        rw [haa, haz', hkey]
      · exact h.once a a' v v' hv ((hstatus a' haz').symm.trans ha') haa
  · show s.hteHash a = htp.hash (s.key a)
    by_cases haz : a = zhep
    · rw [haz, hhash, hkey]
    · exact h.hash a (by rwa [← hstatus a haz])
  · unfold held
    rw [hl]
    rfl
  · -- nobody has come to the new element
    refine (Kept.link hs hu).look hreads (fun v hv => .inl ⟨hu, hv⟩) (fun a ha => ?_) hlook
    have haz : a ≠ zhep := by
      rintro rfl
      have := ha.1.added
      rw [hs] at this
      cases this
    have hne : Cell.elem a ≠ .elem zhep := fun hx => haz (elem_injective hx)
    exact Finds.add_next s.links (elem_ne_head _ a) hne
  · by_cases hb : b = htp.bkt key
    · exact .inr ⟨key, by rw [hl]; rfl, hb.symm⟩
    · exact .inl (Function.update_of_ne hb ..)
  · show Seen _ _ _ _ ((s.toHeap.link t (htp.bkt key) zhep).lookup htp _)
    rw [lookup_link hkey]
    have happly : (BktRcu.table K).apply (.add key zhep) (s.toHeap.lookup htp live) =
        (Function.update (s.toHeap.lookup htp live) key (some zhep), .done) := if_pos hp.lookup
    exact h.seen.effect rfl (fun _ _ => id) (by rw [hl]; rfl) happly rfl

/-- **An element is deleted.** -/
theorem unlink_step (hl : s.loc t = .delUnlink key zhep) :
    Inv htp ((s.setHeap (s.toHeap.unlink t zhep)).goto t (.delUnlock key zhep)) := by
  have ht := h.loc t
  rw [hl] at ht
  obtain ⟨hs, hkey⟩ := ht
  have hmem : zhep ∈ live (htp.bkt key) := (h.table _ zhep).mpr ⟨⟨t, hs⟩, by rw [hkey]⟩
  obtain ⟨l₁, l₂, hlive⟩ := List.append_of_mem hmem
  have hring := h.ring (htp.bkt key)
  rw [hlive] at hring
  have hnot : zhep ∉ l₁ ++ l₂ := (List.nodup_cons.mp (List.nodup_middle.mp hring.nodup)).1
  have hsub : ∀ a ∈ l₁ ++ l₂, a ∈ live (htp.bkt key) := fun a ha => by
    rw [hlive]
    exact (List.Sublist.append_left (List.sublist_cons_self zhep l₂) l₁).mem ha
  have hne : ∀ a ∈ l₁ ++ l₂, s.key a ≠ key := fun a ha hx => by
    obtain ⟨v, hv⟩ := h.live_table _ a (hsub a ha)
    exact hnot (h.once a zhep v t hv hs (hx.trans hkey.symm) ▸ ha)
  have hstatus : ∀ a, a ≠ zhep → (s.toHeap.unlink t zhep).status a = s.status a := fun a ha =>
    Function.update_of_ne ha ..
  have hself : (s.toHeap.unlink t zhep).status zhep = .removed t := Function.update_self ..
  have hkeep : ∀ {a v}, (s.toHeap.unlink t zhep).status a = .table v → s.status a = .table v := fun {a v} ha => by
    by_cases haz : a = zhep
    · rw [haz, hself] at ha
      cases ha
    · exact (hstatus a haz).symm.trans ha
  -- the other buckets are not touched
  have hframe : ∀ b, b ≠ htp.bkt key → ∀ c, c = Cell.head b ∨ (∃ a, c = .elem a ∧ htp.bkt (s.key a) = b) →
      (s.links.del (.elem zhep)).next c = s.links.next c ∧ (s.links.del (.elem zhep)).prev c = s.links.prev c := by
    intro b hb c hc
    refine (h.ring (htp.bkt key)).del_frame hmem (fun hx => ?_) fun a ha hx => ?_
    · rcases hc with hc | ⟨a, hc, -⟩
      · exact hb (Cell.head.inj (hc.symm.trans hx))
      · exact absurd (hc.symm.trans hx) (elem_ne_head _ a)
    · rcases hc with hc | ⟨a', hc, hba⟩
      · exact absurd (hx.symm.trans hc) (elem_ne_head _ a)
      · obtain rfl := elem_injective (hc.symm.trans hx)
        exact hb (hba.symm.trans ((h.table _ a').mp ha).2)
  refine h.of_step (Function.update live (htp.bkt key) (l₁ ++ l₂)) (Seen.others saw t) rfl
    (fun b => ?_) (fun b a => ?_) (fun a a' v v' ha ha' => h.once a a' v v' (hkeep ha) (hkeep ha')) (fun a ha => ?_)
    (h.lock.keep rfl fun b => ?_) (fun _ hu => .unlink hs hu) (fun _ hu _ hv => ⟨hu, hv⟩)
    (fun u hu hreads k c hlooks hlook => ?_) (fun b => ?_) hself ?_
  · by_cases hb : b = htp.bkt key
    · rw [hb, Function.update_self]
      exact hring.del elem_injective (elem_ne_head _)
    · rw [Function.update_of_ne hb]
      exact (h.ring b).congr (hframe b hb _ (.inl rfl)) fun a ha =>
        hframe b hb _ (.inr ⟨a, rfl, ((h.table b a).mp ha).2⟩)
  · show a ∈ Function.update live (htp.bkt key) (l₁ ++ l₂) b ↔
      (∃ v, (s.toHeap.unlink t zhep).status a = .table v) ∧ htp.bkt (s.key a) = b
    by_cases haz : a = zhep
    · rw [haz, hself]
      refine iff_of_false (fun hm => ?_) fun hx => by
        obtain ⟨⟨v, hv⟩, -⟩ := hx
        cases hv
      by_cases hb : b = htp.bkt key
      · rw [hb, Function.update_self] at hm
        exact hnot hm
      · rw [Function.update_of_ne hb] at hm
        exact h.not_mem_of_ne hmem hb hm
    · rw [hstatus a haz, ← h.table b a]
      by_cases hb : b = htp.bkt key
      · rw [hb, Function.update_self, hlive]
        simp [haz]
      · rw [Function.update_of_ne hb]
  · show s.hteHash a = htp.hash (s.key a)
    by_cases haz : a = zhep
    · rw [haz]
      exact h.hash zhep (by rw [hs]; rfl)
    · exact h.hash a (by rwa [← hstatus a haz])
  · unfold held
    rw [hl]
    rfl
  · by_cases hb : htp.bkt k = htp.bkt key
    · -- the lookup finds what it would have found, or what the map has now
      obtain ⟨r, hr, hv⟩ := hlook
      obtain ⟨r', hr', hor⟩ := hr.del elem_injective (elem_ne_head _) (hb ▸ hring)
        (fun a hm => by
          obtain ⟨hs, hba⟩ := (h.table _ a).mp (hlive ▸ hm)
          exact ⟨.inl hs, hba.trans hb.symm⟩)
        fun hx a hm => by
          have hk : key = k := hkey.symm.trans (beq_iff_eq.mp hx)
          exact beq_eq_false_iff_ne.mpr (hk ▸ hne a (List.mem_append_left _ hm))
      refine ⟨r', (Kept.unlink hs hu).finds hreads hr', ?_⟩
      rcases hor with rfl | rfl
      · exact .inl ⟨hu, hv⟩
      · refine .inr ⟨k, ?_, congrArg TableRes.found ?_⟩
        · show looks (Function.update s.loc t _ u) = some k
          rwa [Function.update_of_ne hu]
        · show _ = (Function.update live (htp.bkt key) (l₁ ++ l₂) (htp.bkt k)).find? _
          rw [hb, Function.update_self]
          rfl
    · exact (Kept.unlink hs hu).look hreads (fun v hv => .inl ⟨hu, hv⟩)
        (fun a ha => (hframe _ hb _ (.inr ⟨a, rfl, ha.2⟩)).1) hlook
  · by_cases hb : b = htp.bkt key
    · exact .inr ⟨key, by rw [hl]; rfl, hb.symm⟩
    · exact .inl (Function.update_of_ne hb ..)
  · show Seen _ _ _ _ ((s.toHeap.unlink t zhep).lookup htp _)
    rw [lookup_unlink hlive hkey hne]
    exact h.seen.effect rfl (fun _ _ => id) (by rw [hl]; rfl) rfl rfl

theorem add_next (hl : s.loc t = .addNext key zhep c) : ∃ l₁ l₂, Passed htp s.toHeap live key l₁ l₂ ∧
    s.links.next c = first Cell.elem (.head (htp.bkt key)) l₂ := by
  have ht := h.loc t
  rw [hl] at ht
  obtain ⟨-, l₁, l₂, hp, rfl⟩ := ht
  exact ⟨l₁, l₂, hp, ((h.ring _).link l₁ l₂ hp.1).1⟩

/-- What `hashtab_lookup` comes to under the lock is in the table. -/
theorem passed_table (hp : Passed htp s.toHeap live key l₁ (a :: l₂)) : ∃ v, s.status a = .table v :=
  h.live_table (htp.bkt key) a (by rw [hp.1]; simp)

/-- `zoo_add` goes past an element with another key. -/
theorem add_pass (hl : (s.loc t).locked = some key) (hpend : pend (s.loc t) = .called (.add key zhep))
    (ho : s.status zhep = .own t ∧ s.key zhep = key) (hp : Passed htp s.toHeap live key l₁ (a :: l₂))
    (hne : s.key a ≠ key) : Inv htp (s.goto t (.addNext key zhep (.elem a))) := by
  refine h.goto (by rw [hpend]; rfl) (by rw [hl]; rfl) fun _ _ => ⟨ho, l₁ ++ [a], l₂, ⟨?_, fun b hb => ?_⟩, ?_⟩
  · rw [hp.1, List.append_assoc, List.singleton_append]
  · rcases List.mem_append.mp hb with hb | hb
    · exact hp.2 b hb
    · rw [List.mem_singleton.mp hb]
      exact hne
  · rw [last_append_cons, last_nil]

/-- **What an update does.** -/
theorem update_step (hl : looks (s.loc t) = none) (hn : stepThread htp t s = some s') : Inv htp s' := by
  have ht := h.loc t
  unfold stepThread at hn
  cases hx : s.loc t with
  | addLock key zhep =>
    rw [hx] at ht
    simp only [hx] at hn
    exact h.takes hn (by rw [hx]; rfl) (by rw [hx]; rfl) rfl fun _ => ⟨ht, [], _, ⟨rfl, nofun⟩, rfl⟩
  | addNext key zhep c =>
    rw [hx] at ht
    obtain ⟨l₁, l₂, hp, hnext⟩ := h.add_next hx
    simp only [hx, hnext, Option.some.injEq] at hn
    subst hn
    cases l₂ with
    | nil =>
      rw [first_nil, walk, if_pos rfl]
      exact h.goto (by rw [hx]; rfl) (by rw [hx]; rfl) fun _ _ => ⟨ht.1, l₁, hp⟩
    | cons a l₂ => exact h.goto (by rw [hx]; rfl) (by rw [hx]; rfl) fun _ _ => ⟨ht.1, l₁, l₂, hp⟩
  | addHash key zhep htep =>
    rw [hx] at ht
    obtain ⟨ho, l₁, l₂, hp⟩ := ht
    simp only [hx, Option.some.injEq] at hn
    subst hn
    split
    · exact h.goto (by rw [hx]; rfl) (by rw [hx]; rfl) fun _ _ => ⟨ho, l₁, l₂, hp⟩
    · rename_i hne
      refine h.add_pass (by rw [hx]; rfl) (by rw [hx]; rfl) ho hp fun hkey => hne ?_
      obtain ⟨v, hv⟩ := h.passed_table hp
      rw [h.hash htep (by rw [hv]; rfl), hkey]
  | addKey key zhep htep =>
    rw [hx] at ht
    obtain ⟨ho, l₁, l₂, hp⟩ := ht
    simp only [hx, Option.some.injEq] at hn
    subst hn
    split
    · rename_i hkey
      have hthere : s.toHeap.lookup htp live key ≠ none := fun hnone => by
        have := List.find?_eq_none.mp hnone htep (by rw [hp.1]; simp)
        simp [hkey] at this
      have happly : (BktRcu.table K).apply (.add key zhep) (s.toHeap.lookup htp live) =
          (s.toHeap.lookup htp live, .bug) := if_neg hthere
      exact h.decided (by rw [hx]; rfl) happly rfl (by rw [hx]; rfl) fun _ => trivial
    · rename_i hne
      exact h.add_pass (by rw [hx]; rfl) (by rw [hx]; rfl) ho hp hne
  | addStore key zhep =>
    rw [hx] at ht
    obtain ⟨⟨hs, hkey⟩, l₁, hp⟩ := ht
    simp only [hx, Option.some.injEq] at hn
    subst hn
    refine h.same saw (.setHash hs) rfl (h.lock.keep rfl fun b => ?_) (fun _ hu => .setHash hs hu) (fun _ _ _ => id)
      ⟨⟨hs, hkey⟩, ⟨l₁, hp⟩, Function.update_self ..⟩ (h.seen.stay rfl (by rw [hx]; rfl))
    unfold held
    rw [hx]
    rfl
  | addLink key zhep =>
    simp only [hx, Option.some.injEq] at hn
    subst hn
    exact h.link_step hx
  | addUnlock key =>
    simp only [hx, Option.some.injEq] at hn
    subst hn
    exact h.drops (by rw [hx]; rfl) (by rw [hx]; rfl) rfl fun _ => trivial
  | delLock key zhep =>
    rw [hx] at ht
    simp only [hx] at hn
    exact h.takes hn (by rw [hx]; rfl) (by rw [hx]; rfl) rfl fun _ => ht
  | delUnlink key zhep =>
    simp only [hx, Option.some.injEq] at hn
    subst hn
    exact h.unlink_step hx
  | delUnlock key zhep =>
    rw [hx] at ht
    simp only [hx, Option.some.injEq] at hn
    subst hn
    exact h.drops (by rw [hx]; rfl) (by rw [hx]; rfl) rfl fun _ => ht
  | deferDel zhep =>
    rw [hx] at ht
    simp only [hx, Option.some.injEq] at hn
    subst hn
    refine h.same saw (.queue ht) rfl (h.lock.keep rfl fun b => ?_) (fun u hu => .queue ht hu id) (fun _ _ _ => id) trivial
      (h.seen.stay rfl (by rw [hx]; rfl))
    unfold held
    rw [hx]
    rfl
  | ret =>
    simp only [hx, Option.some.injEq] at hn
    subst hn
    exact h.returns (.inl (by rw [hx]; rfl)) (by rw [hx]; rfl)
  | idle | aborted | addBug key =>
    simp only [hx] at hn
    cases hn
  | _ =>
    rw [hx] at hl
    cases hl

/-- An element is allocated, and `zoo_add` goes on. -/
theorem alloc_step (hidle : s.loc t = .idle) (hs : s.status zhep = .unused) :
    Inv htp ((s.setHeap (s.toHeap.alloc t zhep key)).call t (.add key zhep) (.addLock key zhep)) := by
  refine h.same (Seen.others saw t) (.alloc hs) rfl (h.lock.keep rfl fun b => ?_)
    (fun _ _ => .alloc hs) (fun _ hu _ hv => ⟨hu, hv⟩) ⟨Function.update_self .., Function.update_self ..⟩
    (h.seen.called rfl (fun _ _ => id) (by rw [hidle]; rfl) rfl)
  unfold held
  rw [hidle]
  rfl

/-- **The callback frees an element.** No thread moves. -/
theorem cb_step (hn : stepCb zhep s = some s') : Inv htp s' := by
  unfold stepCb at hn
  split at hn
  · rename_i hc
    obtain ⟨hs, hw⟩ := hc
    obtain rfl := Option.some.inj hn
    have hp : Plain s.toHeap (s.toHeap.setStatus zhep .unused) := .free hs
    refine ⟨live, saw, h.ring, fun b a => ?_, fun a b t u ha hb => ?_, fun a ha => h.hash a (hp.added a ha).1, h.lock,
      h.now, fun u => ?_, h.seen⟩
    · rw [h.table b a]
      exact and_congr_left fun _ => exists_congr fun t => (hp.table a t).symm
    · exact h.once a b t u ((hp.table a t).mp ha) ((hp.table b u).mp hb)
    · have hk : Kept s.toHeap (s.toHeap.setStatus zhep .unused) u (s.loc u) := .free hs hw
      exact (h.loc u).step hk h.live_table (fun _ => id)
        (fun hr _ _ _ => hk.look hr (fun _ => id) fun _ _ => rfl) fun _ _ => rfl
  · cases hn

/-- An element that a call is going to access is allocated. -/
theorem uses (hl : uses (s.loc t) = some a) : s.status a ≠ .unused := by
  have ht := h.loc t
  have htable : (∃ v, s.status a = .table v) → s.status a ≠ .unused := fun ⟨v, hv⟩ => by
    rw [hv]
    nofun
  cases hx : s.loc t with
  | readNext key c =>
    rw [hx] at hl ht
    cases c with
    | head => cases hl
    | elem htep =>
      obtain rfl := Option.some.inj hl
      exact ht.2.near.1.used
  | readHash key htep | readKey key htep =>
    rw [hx] at hl ht
    obtain rfl := Option.some.inj hl
    exact ht.near.1.used
  | readCheck key htep | readName key htep =>
    rw [hx] at hl ht
    obtain rfl := Option.some.inj hl
    exact ht.2.1.used
  | addNext key zhep c =>
    rw [hx] at hl ht
    cases c with
    | head => cases hl
    | elem htep =>
      obtain rfl := Option.some.inj hl
      obtain ⟨-, l₁, l₂, hp, hc⟩ := ht
      rcases last_mem (f := Cell.elem) (h := .head (htp.bkt key)) (l := l₁) with hlast | ⟨b, hb, hlast⟩
      · exact absurd (hc.trans hlast) (elem_ne_head _ htep)
      · obtain rfl := elem_injective (hc.trans hlast)
        exact h.used (b := htp.bkt key) (by rw [hp.1]; exact List.mem_append_left _ hb)
  | addHash key zhep htep | addKey key zhep htep =>
    rw [hx] at hl ht
    obtain rfl := Option.some.inj hl
    obtain ⟨-, l₁, l₂, hp⟩ := ht
    exact htable (h.passed_table hp)
  | addStore key zhep | addLink key zhep =>
    rw [hx] at hl ht
    obtain rfl := Option.some.inj hl
    rw [ht.1.1]
    nofun
  | delUnlink key zhep =>
    rw [hx] at hl ht
    obtain rfl := Option.some.inj hl
    exact htable ⟨t, ht.1⟩
  | deferDel zhep =>
    rw [hx] at hl ht
    obtain rfl := Option.some.inj hl
    have ht : s.status zhep = .removed t := ht
    rw [ht]
    nofun
  | _ =>
    rw [hx] at hl
    cases hl

theorem holds : Holds htp s where
  lin := by
    obtain ⟨S, hl⟩ := h.seen.lin _ fun _ => .inl rfl
    exact ⟨live, S, h.ring, h.table, hl⟩
  uses _ _ := h.uses
  noAbort t hx := by
    have ht := h.loc t
    rwa [hx] at ht

end InvOf

/-! ### Runs -/

/-- **A step keeps the invariant.** -/
theorem inv_next {a : Act n K} (h : Inv htp s) (hn : next htp a s = some s') : Inv htp s' := by
  obtain ⟨live, saw, h⟩ := h
  cases a with
  | lookup t key =>
    simp only [next, Option.ite_none_right_eq_some, Option.some.injEq] at hn
    obtain ⟨hidle, rfl⟩ := hn
    exact h.calls hidle rfl rfl fun _ => trivial
  | add t key zhep =>
    simp only [next, Option.ite_none_right_eq_some, Option.some.injEq] at hn
    obtain ⟨⟨hidle, hs⟩, rfl⟩ := hn
    exact h.alloc_step hidle hs
  | del t zhep =>
    simp only [next, Option.ite_none_right_eq_some, Option.some.injEq] at hn
    obtain ⟨⟨hidle, hs⟩, rfl⟩ := hn
    exact h.calls hidle rfl rfl fun _ => ⟨hs, rfl⟩
  | step t =>
    cases hl : looks (s.loc t) with
    | none => exact h.update_step hl hn
    | some key => exact h.lookup_step hl hn
  | cb zhep => exact h.cb_step hn

theorem inv_init (h : Init s) : Inv htp s := by
  refine ⟨fun _ => [], fun _ _ => False, fun b => .nil (h.next b) (h.prev b), fun b a => ?_, fun a b t u ha => ?_,
    fun a ha => ?_, ⟨fun t b hb => ?_, fun _ t b hb => ?_⟩, fun t key hl => ?_, fun t => ?_, ?_⟩
  · rw [h.status a]
    exact iff_of_false List.not_mem_nil fun hx => nomatch hx.1
  · rw [h.status a] at ha
    cases ha
  · rw [h.status a] at ha
    cases ha
  · obtain ⟨key, hk, -⟩ := hb
    rw [h.loc t] at hk
    cases hk
  · rw [h.lock b] at hb
    cases hb
  · rw [h.loc t] at hl
    cases hl
  · rw [h.loc t]
    trivial
  · have hpend : (fun t => pend (s.loc t)) = fun _ => .idle := funext fun t => by rw [h.loc t]; rfl
    rw [h.hist, hpend]
    exact Seen.start (BktRcu.table K)

/-- **`hash_bkt_rcu.c` is linearizable**, and no call comes to an element that was freed. -/
theorem table_linearizable (htp : Hashtab K) (h : (sys (n := n) htp).Reach Sys.always s) : Holds htp s := by
  obtain ⟨live, saw, h⟩ := h.inv (I := Inv htp) (fun _ => inv_init) fun _ _ _ h _ hn => inv_next h hn
  exact h.holds

omit [DecidableEq K]

/-- Two buckets, and keys that are their own hashes. -/
def twoBuckets : Hashtab ℕ := ⟨2, Nat.two_pos, id⟩

/-- No element is allocated. -/
def start (n : ℕ) : St n ℕ where
  links := ⟨fun c => c, fun c => c⟩
  hteHash := fun _ => 0
  key := fun _ => 0
  status := fun _ => .unused
  wait := fun _ _ => false
  lock := fun _ => none
  loc := fun _ => .idle
  hist := []

theorem init_start (n : ℕ) : Init (start n) := ⟨fun _ => rfl, fun _ => rfl, fun _ => rfl, fun _ => rfl, fun _ => rfl, rfl⟩

/-- What the calls returned, in order. -/
def results (hist : List (Ev (Fin n) (TableOp K) TableRes)) : List (Fin n × TableRes) :=
  hist.filterMap fun
    | .call _ _ => none
    | .ret t r => some (t, r)

/-- A lookup stands on an element that is deleted, and its memory is used again when the lookup has returned. -/
theorem table_linearizable_reuse : ∃ s : St 2 ℕ, (sys (n := 2) twoBuckets).Reach Sys.always s ∧
    results s.hist = [(0, .done), (0, .done), (1, .found (some 5)), (0, .done), (1, .found none)] ∧
    s.links.next (.head 0) = .elem 5 ∧ Holds twoBuckets s := by
  have hrun : ((sys (n := 2) twoBuckets).run Sys.always (
      [.add 0 3 5] ++ List.replicate 6 (.step 0) ++ [.lookup 1 3] ++ List.replicate 3 (.step 1) ++
      [.del 0 5] ++ List.replicate 5 (.step 0) ++ List.replicate 5 (.step 1) ++
      [.cb 5, .add 0 4 5] ++ List.replicate 6 (.step 0) ++ [.lookup 1 6] ++ List.replicate 6 (.step 1)) (start 2)).map
      (fun s => (results s.hist, s.links.next (.head 0))) =
        some ([(0, .done), (0, .done), (1, .found (some 5)), (0, .done), (1, .found none)], .elem 5) := by
    decide +kernel
  obtain ⟨s, hs, hend⟩ := Option.map_eq_some_iff.mp hrun
  have hreach := Sys.run_reach (.init (init_start 2)) hs
  rw [Prod.mk.injEq] at hend
  exact ⟨s, hreach, hend.1, hend.2, table_linearizable twoBuckets hreach⟩

end BktRcu
end Hash
end Perfbook
