/-
# No node is lost or handed out twice

A node that `malloc` has returned is at one place: in use, on one of the two lists of a cache, or in the hands of a
thread inside the functions, which is about to put it on its list or to hand it out. `place` says where (`Inv`). Each
step moves one node, or one list as a whole.

Key definitions: `Place`, `Loc.hands`, `Inv`, `Conserved`.
Key theorems: `Inv.init`, `Inv.step`, `Inv.conserved`, `cache_conserved`.
-/
import Mathlib.Tactic.Common
import Perfbook.Issaquah.Cache

namespace Perfbook
namespace NodeCache

/-- Where a node is. -/
inductive Place (τ : Type)
  | nowhere
  | used
  | list (q : Which × τ)
  | hands (t : τ)

/-- `p[0]` to `p[i]`. -/
def upTo {B : Type} (p : B) (i : ℕ) : List (Node B) := (List.range (i + 1)).map fun j => (p, j)

theorem mem_upTo {B : Type} {p : B} {i : ℕ} {a : Node B} : a ∈ upTo p i ↔ a.1 = p ∧ a.2 < i + 1 := by
  obtain ⟨b, j⟩ := a
  simp only [upTo, List.mem_map, List.mem_range, Prod.mk.injEq]
  constructor
  · rintro ⟨k, hk, rfl, rfl⟩
    exact ⟨rfl, hk⟩
  · rintro ⟨rfl, hj⟩
    exact ⟨j, hj, rfl, rfl⟩

theorem nodup_upTo {B : Type} (p : B) (i : ℕ) : (upTo p i).Nodup :=
  List.nodup_range.map fun j k hjk => by cases hjk; rfl

theorem upTo_succ {B : Type} (p : B) (i : ℕ) : ((p, i + 1) :: upTo p i).Perm (upTo p (i + 1)) := by
  have hrange : List.range (i + 1 + 1) = List.range (i + 1) ++ [i + 1] := List.range_succ
  unfold upTo
  rw [hrange, List.map_append]
  exact (List.perm_append_singleton (p, i + 1) _).symm

/-- The nodes of a batch that are left when the free function returns. -/
def Ret.hands {B : Type} : Ret B → List (Node B)
  | .done => []
  | .batch p i => upTo p i

/-- The nodes that a thread inside the functions has in its hands. -/
def Loc.hands {τ B : Type} : Loc τ B → List (Node B)
  | .free a r => a :: r.hands
  | .hand _ a r => a :: r.hands
  | .put a r => a :: r.hands
  | .batch p i => upTo p i
  | _ => []

@[simp] theorem hands_loc {τ B : Type} (r : Ret B) : (r.loc : Loc τ B).hands = r.hands := by
  cases r <;> rfl

section

variable {τ B : Type} [DecidableEq τ] [DecidableEq B] {file : File} {s s' : St τ B} {t u : τ} {a b : Node B}
  {L L' : Which × τ → List (Node B)} {place : Node B → Place τ} {l : Loc τ B}

/-- The cache of `t` is initialised. -/
def Ready (s : St τ B) (t : τ) : Prop := ∀ w, s.tail (w, t) ≠ none

/-- What holds of the lists while a thread is at `l`. -/
def At (s : St τ B) (L : Which × τ → List (Node B)) (t : τ) : Loc τ B → Prop
  | .hand u _ _ => Ready s t ∧ Ready s u ∧ L (.free, t) ≠ []
  | .put _ _ => Ready s t
  | .refill => Ready s t ∧ L (.free, t) = [] ∧ L (.ffree, t) ≠ []
  | _ => True

/-- Each node is at one place. -/
structure Placed (file : File) (s : St τ B) (L : Which × τ → List (Node B)) (place : Node B → Place τ) : Prop where
  list : ∀ q a, a ∈ L q ↔ place a = .list q
  used : ∀ a, s.used a = true ↔ place a = .used
  known : ∀ a, s.malloced a.1 = true ∧ a.2 < MALLOC_BATCH file ↔ place a ≠ .nowhere
  hands : ∀ t a, a ∈ (s.loc t).hands ↔ place a = .hands t
  nodup : ∀ t, (s.loc t).hands.Nodup

structure Inv (file : File) (s : St τ B) (L : Which × τ → List (Node B)) (place : Node B → Place τ) : Prop where
  hung : Conc.Hung s.ptr s.tail s.nfree L
  placed : Placed file s L place
  both : ∀ t, s.tail (.free, t) = none ↔ s.tail (.ffree, t) = none
  wired : ∀ t u, s.tncp t = some u → Ready s u
  queued : ∀ u, s.queued u = true → Ready s u
  loc : ∀ t, At s L t (s.loc t)

omit [DecidableEq τ] [DecidableEq B] in
theorem Placed.apart (h : Placed file s L place) (q q' : Which × τ) (a : Node B) (ha : a ∈ L q) (ha' : a ∈ L q') :
    q = q' := by
  rw [h.list] at ha ha'
  rw [ha] at ha'
  cases ha'
  rfl

omit [DecidableEq τ] [DecidableEq B] in
theorem Placed.not_mem (h : Placed file s L place) (ha : ∀ q, place a ≠ .list q) (q : Which × τ) : a ∉ L q :=
  fun hq => ha q ((h.list q a).mp hq)

omit [DecidableEq τ] [DecidableEq B] in
theorem Placed.unused (h : Placed file s L place) (ha : place a ≠ .used) : s.used a = false := by
  rw [← Bool.not_eq_true, h.used]
  exact ha

omit [DecidableEq τ] [DecidableEq B] in
theorem Inv.ready_of (h : Inv file s L place) (ht : s.tail (.free, t) ≠ none) : Ready s t := by
  intro w
  cases w with
  | free => exact ht
  | ffree => exact fun hn => ht ((h.both t).mpr hn)

/-! ### The start of the functions -/

theorem Inv.cacheInit (h : Inv file s L place) (ht : s.tail (.free, t) = none) : Inv file (s.cacheInit t) L place := by
  have ht' := (h.both t).mp ht
  have hready : ∀ u, Ready s u → Ready (s.cacheInit t) u := by
    intro u hu w hn
    simp only [St.cacheInit] at hn
    by_cases h₂ : (w, u) = (.ffree, t)
    · rw [h₂, Function.update_self] at hn
      cases hn
    · rw [Function.update_of_ne h₂] at hn
      by_cases h₁ : (w, u) = (.free, t)
      · rw [h₁, Function.update_self] at hn
        cases hn
      · rw [Function.update_of_ne h₁] at hn
        exact hu w hn
  have hself : Ready (s.cacheInit t) t := by
    intro w hn
    cases w <;> simp [St.cacheInit] at hn
  refine ⟨?_, ⟨h.placed.list, h.placed.used, h.placed.known, h.placed.hands, h.placed.nodup⟩, fun u => ?_,
    fun u v hv => ?_, fun u hu => hready u (h.queued u hu), fun u => ?_⟩
  · exact (h.hung.clear ht).clear (by rw [Function.update_of_ne (by simp)]; exact ht')
  · by_cases hut : u = t
    · subst hut
      exact iff_of_false (hself _) (hself _)
    · simp [St.cacheInit, hut, h.both u]
  · simp only [St.cacheInit] at hv
    by_cases hut : u = t
    · rw [hut, Function.update_self] at hv
      cases hv
    · rw [Function.update_of_ne hut] at hv
      exact hready v (h.wired u v hv)
  · have := h.loc u
    change At (s.cacheInit t) L u (s.loc u)
    revert this
    cases s.loc u with
    | hand v _ _ => exact fun ⟨h₁, h₂, h₃⟩ => ⟨hready u h₁, hready v h₂, h₃⟩
    | put _ _ => exact hready u
    | refill => exact fun ⟨h₁, h₂⟩ => ⟨hready u h₁, h₂⟩
    | idle | free _ _ | alloc | take | batch _ _ => exact id

theorem Inv.ready (h : Inv file s L place) (t : τ) : Inv file (s.ready t) L place ∧ Ready (s.ready t) t := by
  unfold St.ready
  split
  · rename_i ht
    exact ⟨h.cacheInit ht, fun w hn => by cases w <;> simp [St.cacheInit] at hn⟩
  · rename_i ht
    exact ⟨h, h.ready_of ht⟩

/-! ### The steps of one thread -/

omit [DecidableEq B] in
/-- Only thread `t` has other nodes in its hands. -/
theorem Placed.move {place' : Node B → Place τ} (h : Placed file s L place) (hloc : s'.loc = Function.update s.loc t l)
    (hlist : ∀ q a, a ∈ L' q ↔ place' a = .list q) (hused : ∀ a, s'.used a = true ↔ place' a = .used)
    (hknown : ∀ a, s'.malloced a.1 = true ∧ a.2 < MALLOC_BATCH file ↔ place' a ≠ .nowhere)
    (hself : ∀ a, a ∈ l.hands ↔ place' a = .hands t)
    (hother : ∀ u ≠ t, ∀ a, place' a = .hands u ↔ place a = .hands u) (hnodup : l.hands.Nodup) :
    Placed file s' L' place' := by
  refine ⟨hlist, hused, hknown, fun u a => ?_, fun u => ?_⟩
  · rw [hloc]
    by_cases hut : u = t
    · subst hut
      rw [Function.update_self]
      exact hself a
    · rw [Function.update_of_ne hut, hother u hut]
      exact h.hands u a
  · rw [hloc]
    by_cases hut : u = t
    · subst hut
      rw [Function.update_self]
      exact hnodup
    · rw [Function.update_of_ne hut]
      exact h.nodup u

omit [DecidableEq B] in
/-- What the other threads rely on is kept: the caches that are initialised stay so, and become no more. -/
theorem Inv.move {place' : Node B → Place τ} (h : Inv file s L place) (hloc : s'.loc = Function.update s.loc t l)
    (hung : Conc.Hung s'.ptr s'.tail s'.nfree L') (hplaced : Placed file s' L' place')
    (htail : ∀ q, s'.tail q = none ↔ s.tail q = none) (htncp : s'.tncp = s.tncp) (hqueued : s'.queued = s.queued)
    (hkeep : ∀ u ≠ t, L' (.free, u) = L (.free, u) ∧ (L (.ffree, u) ≠ [] → L' (.ffree, u) ≠ []))
    (hat : At s' L' t l) : Inv file s' L' place' := by
  have hready : ∀ u, Ready s u → Ready s' u := fun u hu w => mt (htail (w, u)).mp (hu w)
  refine ⟨hung, hplaced, fun u => ?_, fun u v hv => hready v (h.wired u v (htncp ▸ hv)),
    fun u hu => hready u (h.queued u (hqueued ▸ hu)), fun u => ?_⟩
  · rw [htail, htail, h.both u]
  · rw [hloc]
    by_cases hut : u = t
    · subst hut
      rw [Function.update_self]
      exact hat
    · rw [Function.update_of_ne hut]
      have := h.loc u
      revert this
      obtain ⟨hfree, hffree⟩ := hkeep u hut
      cases s.loc u with
      | hand v _ _ => exact fun ⟨h₁, h₂, h₃⟩ => ⟨hready u h₁, hready v h₂, by rw [hfree]; exact h₃⟩
      | put _ _ => exact hready u
      | refill => exact fun ⟨h₁, h₂, h₃⟩ => ⟨hready u h₁, by rw [hfree]; exact h₂, hffree h₃⟩
      | idle | free _ _ | alloc | take | batch _ _ => exact id

omit [DecidableEq B] in
/-- A thread goes on with the same nodes in its hands. -/
theorem Inv.goto (h : Inv file s L place) (hperm : l.hands.Perm (s.loc t).hands) (hat : At s L t l) :
    Inv file (s.goto t l) L place := by
  have hplaced : Placed file (s.goto t l) L place := h.placed.move rfl h.placed.list h.placed.used h.placed.known
    (fun a => by rw [hperm.mem_iff]; exact h.placed.hands t a) (fun _ _ _ => Iff.rfl)
    (hperm.nodup_iff.mpr (h.placed.nodup t))
  exact h.move rfl h.hung hplaced (fun _ => Iff.rfl) rfl rfl (fun _ _ => ⟨rfl, id⟩) hat

/-- One node `a` goes from `p₀` to `p`. -/
theorem Placed.one {p p₀ : Place τ} (h : Placed file s L place) (hp₀ : place a = p₀)
    (hloc : s'.loc = Function.update s.loc t l) (hmalloced : s'.malloced = s.malloced)
    (hlist : ∀ q b, b ∈ L' q ↔ b ≠ a ∧ b ∈ L q ∨ b = a ∧ p = .list q)
    (hused : ∀ b, s'.used b = true ↔ b ≠ a ∧ s.used b = true ∨ b = a ∧ p = .used)
    (hself : ∀ b, b ∈ l.hands ↔ b ≠ a ∧ b ∈ (s.loc t).hands ∨ b = a ∧ p = .hands t)
    (hother : ∀ u ≠ t, p₀ ≠ .hands u ∧ p ≠ .hands u) (hsome : p₀ ≠ .nowhere ∧ p ≠ .nowhere)
    (hnodup : l.hands.Nodup) : Placed file s' L' (Function.update place a p) := by
  have heq : ∀ b x, Function.update place a p b = x ↔ b ≠ a ∧ place b = x ∨ b = a ∧ p = x := fun b x => by
    by_cases hb : b = a
    · subst hb
      simp
    · simp [hb]
  refine h.move hloc (fun q b => ?_) (fun b => ?_) (fun b => ?_) (fun b => ?_) (fun u hu b => ?_) hnodup
  · rw [hlist, heq, h.list]
  · rw [hused, heq, h.used]
  · rw [hmalloced, h.known, Ne, Ne, not_iff_not, heq]
    by_cases hb : b = a
    · subst hb
      simp [hp₀, hsome]
    · simp [hb]
  · rw [hself, heq, h.hands]
  · rw [heq]
    obtain ⟨h₀, h₁⟩ := hother u hu
    by_cases hb : b = a
    · subst hb
      simp [hp₀, h₀, h₁]
    · simp [hb]

/-- A node in use is given to the free function. -/
theorem Inv.callFree (h : Inv file s L place) (hl : s.loc t = .idle) (ha : s.used a = true) :
    Inv file { s.goto t (.free a .done) with used := Function.update s.used a false } L
      (Function.update place a (.hands t)) := by
  have hp := (h.placed.used a).mp ha
  refine h.move rfl h.hung (h.placed.one hp rfl rfl (fun q b => ?_) (fun b => ?_) (fun b => ?_) (fun u hu => ?_)
    ⟨nofun, nofun⟩ (List.nodup_singleton a)) (fun _ => Iff.rfl) rfl rfl (fun _ _ => ⟨rfl, id⟩) trivial
  · have hout : a ∉ L q := h.placed.not_mem (by simp [hp]) q
    by_cases hb : b = a
    · simp [hb, hout]
    · simp [hb]
  · by_cases hb : b = a
    · simp [hb]
    · simp [hb]
  · by_cases hb : b = a
    · simp [hb, Loc.hands]
    · simp [hb, hl, Loc.hands, Ret.hands]
  · exact ⟨nofun, fun he => hu (by cases he; rfl)⟩

omit [DecidableEq B] in
/-- Where a pointer to the last link is set, it stays set. -/
theorem update_eq_none {f : Which × τ → Option (Slot τ B)} {q : Which × τ} {x : Slot τ B} (hq : f q ≠ none)
    (r : Which × τ) : Function.update f q (some x) r = none ↔ f r = none := by
  by_cases hr : r = q
  · subst hr
    rw [Function.update_self]
    exact iff_of_false nofun hq
  · rw [Function.update_of_ne hr]

/-- A node is put on the list of the thread. -/
theorem Inv.append (h : Inv file s L place) {r : Ret B} (hl : s.loc t = .put a r) :
    ∃ s', s.append t a = some s' ∧ Inv file (s'.goto t r.loc)
      (Function.update L (.free, t) (L (.free, t) ++ [a])) (Function.update place a (.list (.free, t))) := by
  have hat := h.loc t
  rw [hl] at hat
  obtain ⟨tail, htail⟩ := Option.ne_none_iff_exists'.mp (hat .free)
  refine ⟨_, by rw [St.append, htail]; rfl, ?_⟩
  have hp : place a = .hands t := (h.placed.hands t a).mp (by rw [hl]; exact List.mem_cons_self)
  have hnodup : (a :: r.hands).Nodup := by have := h.placed.nodup t; rwa [hl] at this
  have hnew : ∀ q, a ∉ L q := h.placed.not_mem (by simp [hp])
  refine h.move rfl (h.hung.append h.placed.apart htail hnew) (h.placed.one hp rfl rfl (fun q b => ?_) (fun b => ?_)
    (fun b => ?_) (fun u hu => ?_) ⟨nofun, nofun⟩ ?_) (update_eq_none (hat .free)) rfl rfl (fun u hu => ?_) ?_
  · by_cases hq : q = (.free, t)
    · subst hq
      by_cases hb : b = a
      · simp [hb]
      · simp [hb]
    · by_cases hb : b = a
      · simp [hb, hq, hnew q, Ne.symm hq]
      · simp [hb, hq]
  · have hunused : s.used a = false := h.placed.unused (by simp [hp])
    by_cases hb : b = a
    · subst hb
      simpa using hunused
    · simp [hb]
  · rw [hands_loc, hl]
    by_cases hb : b = a
    · subst hb
      simpa using (List.nodup_cons.mp hnodup).1
    · simp [hb, Loc.hands]
  · exact ⟨fun he => hu (by cases he; rfl), nofun⟩
  · rw [hands_loc]
    exact (List.nodup_cons.mp hnodup).2
  · simp [hu]
  · cases r <;> trivial

/-- The nodes of the list `q` go to the list `q'`. -/
theorem Placed.splice {q q' : Which × τ} (h : Placed file s L place) (hq : q ≠ q')
    (hloc : s'.loc = Function.update s.loc t l) (hmalloced : s'.malloced = s.malloced) (hused : s'.used = s.used)
    (hself : l.hands = (s.loc t).hands) :
    Placed file s' (Function.update (Function.update L q (L q ++ L q')) q' [])
      (fun a => if a ∈ L q' then .list q else place a) := by
  have heq : ∀ a x, (∀ r, x ≠ .list r) → ((if a ∈ L q' then .list q else place a) = x ↔ place a = x) := by
    intro a x hx
    by_cases ha : a ∈ L q'
    · rw [if_pos ha, (h.list q' a).mp ha]
      exact iff_of_false (hx q).symm (hx q').symm
    · rw [if_neg ha]
  refine h.move hloc (fun r a => ?_) (fun a => ?_) (fun a => ?_) (fun a => ?_)
    (fun u _ a => heq a (.hands u) fun _ => nofun) (hself ▸ h.nodup t)
  · by_cases hr' : r = q'
    · subst hr'
      rw [Function.update_self]
      refine iff_of_false List.not_mem_nil fun hp => ?_
      split at hp
      · cases hp
        exact hq rfl
      · rename_i ha
        exact ha ((h.list r a).mpr hp)
    rw [Function.update_of_ne hr']
    by_cases hr : r = q
    · subst hr
      rw [Function.update_self, List.mem_append]
      by_cases ha : a ∈ L q'
      · simp [ha]
      · simp [ha, h.list]
    · rw [Function.update_of_ne hr]
      by_cases ha : a ∈ L q'
      · rw [if_pos ha]
        exact iff_of_false (fun har => hr' (h.apart r q' a har ha)) fun hp => hr (by cases hp; rfl)
      · rw [if_neg ha, h.list]
  · rw [hused, heq a .used fun _ => nofun, h.used]
  · rw [hmalloced, h.known, Ne, Ne, not_iff_not, heq a .nowhere fun _ => nofun]
  · rw [hself, heq a (.hands t) fun _ => nofun, h.hands]

/-- The list of a thread is handed to another cache, which may be its own. -/
theorem Inv.handOff (h : Inv file s L place) {r : Ret B} (hl : s.loc t = .hand u a r) :
    ∃ s', s.handOff t u = some s' ∧ Inv file (s'.goto t (.put a r))
      (Function.update (Function.update L (.ffree, u) (L (.ffree, u) ++ L (.free, t))) (.free, t) [])
      (fun b => if b ∈ L (.free, t) then .list (.ffree, u) else place b) := by
  have hat := h.loc t
  rw [hl] at hat
  obtain ⟨hready, hready', hne⟩ := hat
  obtain ⟨tail, htail⟩ := Option.ne_none_iff_exists'.mp (hready' .ffree)
  obtain ⟨own, hown⟩ := Option.ne_none_iff_exists'.mp (hready .free)
  have hq : ((.ffree, u) : Which × τ) ≠ (.free, t) := nofun
  have hkeep : ∀ q, Function.update (Function.update s.tail (.ffree, u) (s.tail (.free, t))) (.free, t)
      (some (.head (.free, t))) q = none ↔ s.tail q = none := fun q => by
    have hset := update_eq_none (x := own) (hready' .ffree)
    rw [hown, update_eq_none (mt (hset _).mp (hready .free)), hset]
  refine ⟨_, by rw [St.handOff, htail]; rfl, ?_⟩
  refine h.move rfl (h.hung.splice h.placed.apart hq hne htail) (h.placed.splice hq rfl rfl rfl ?_) hkeep rfl rfl
    (fun v hv => ?_) (fun w => mt (hkeep (w, t)).mp (hready w))
  · rw [hl]
    rfl
  · by_cases hvu : v = u
    · subst hvu
      simp [hv, hne]
    · simp [hv, hvu]

/-- A thread takes over what others have handed to its cache. -/
theorem Inv.refill (h : Inv file s L place) (hl : s.loc t = .refill) :
    Inv file ((s.refill t).goto t .take)
      (Function.update (Function.update L (.free, t) (L (.free, t) ++ L (.ffree, t))) (.ffree, t) [])
      (fun b => if b ∈ L (.ffree, t) then .list (.free, t) else place b) := by
  have hat := h.loc t
  rw [hl] at hat
  obtain ⟨hready, hnil, hne⟩ := hat
  obtain ⟨own, hown⟩ := Option.ne_none_iff_exists'.mp (hready .free)
  obtain ⟨tail, htail⟩ := Option.ne_none_iff_exists'.mp (hready .ffree)
  have hq : ((.free, t) : Which × τ) ≠ (.ffree, t) := nofun
  have hhead : s.tail (.free, t) = some (.head (.free, t)) := by
    rw [hown, (h.hung (.free, t)).last_eq own hown, hnil]
    rfl
  have hzero : s.nfree (.free, t) = 0 := by
    rw [(h.hung (.free, t)).length, hnil]
    rfl
  have hung := h.hung.splice h.placed.apart hq hne hhead
  rw [hzero, Int.zero_add] at hung
  have hkeep : ∀ q, Function.update (Function.update s.tail (.free, t) (s.tail (.ffree, t))) (.ffree, t)
      (some (.head (.ffree, t))) q = none ↔ s.tail q = none := fun q => by
    have hset := update_eq_none (x := tail) (hready .free)
    rw [htail, update_eq_none (mt (hset _).mp (hready .ffree)), hset]
  refine h.move rfl hung (h.placed.splice hq rfl rfl rfl ?_) hkeep rfl rfl (fun v hv => ?_) trivial
  · rw [hl]
    rfl
  · simp [hv]

/-- The first node of the list is handed out. -/
theorem Inv.pop (h : Inv file s L place) (hl : s.loc t = .take) (ha : s.ptr (.head (.free, t)) = some a) :
    s.used a = false ∧ ∃ l, L (.free, t) = a :: l ∧ Inv file ((s.pop t a).goto t .idle)
      (Function.update L (.free, t) l) (Function.update place a .used) := by
  rw [(h.hung (.free, t)).head] at ha
  obtain ⟨l, hlist⟩ := List.head?_eq_some_iff.mp ha
  have hp : place a = .list (.free, t) := (h.placed.list _ a).mp (by rw [hlist]; exact List.mem_cons_self)
  have hnot : a ∉ l := by
    have := (h.hung (.free, t)).nodup
    rw [hlist] at this
    exact (List.nodup_cons.mp this).1
  have hset : s.tail (.free, t) ≠ none := fun hn => by
    have := (h.hung (.free, t)).unset hn
    rw [hlist] at this
    cases this
  have hkeep : ∀ q, (s.pop t a).tail q = none ↔ s.tail q = none := fun q => by
    simp only [St.pop]
    split
    · exact update_eq_none hset q
    · exact Iff.rfl
  refine ⟨?_, l, hlist, h.move rfl (h.hung.pop h.placed.apart hlist) (h.placed.one hp rfl rfl (fun q b => ?_)
    (fun b => ?_) (fun b => ?_) (fun u hu => ⟨nofun, nofun⟩) ⟨nofun, nofun⟩ List.nodup_nil) hkeep rfl
    rfl (fun v hv => ?_) trivial⟩
  · exact h.placed.unused (by simp [hp])
  · by_cases hq : q = (.free, t)
    · subst hq
      rw [Function.update_self, hlist]
      by_cases hb : b = a
      · subst hb
        simpa using hnot
      · simp [hb]
    · rw [Function.update_of_ne hq]
      by_cases hb : b = a
      · subst hb
        simp only [ne_eq, not_true_eq_false, false_and, true_and, reduceCtorEq, or_false, iff_false]
        exact fun hbq => hq (h.placed.apart q (.free, t) b hbq (by rw [hlist]; exact List.mem_cons_self))
      · simp [hb]
  · by_cases hb : b = a
    · simp [hb, St.pop]
    · simp [hb, St.pop]
  · rw [hl]
    simp [Loc.hands]
  · simp [hv]

/-- The last node of a batch is handed out. -/
theorem Inv.batch_zero (h : Inv file s L place) {p : B} (hl : s.loc t = .batch p 0) :
    Inv file { s.goto t .idle with used := Function.update s.used (p, 0) true } L
      (Function.update place (p, 0) .used) := by
  have hmem : ∀ b, b ∈ (s.loc t).hands ↔ b = (p, 0) := fun b => by
    rw [hl]
    simp [Loc.hands, upTo]
  have hp : place (p, 0) = .hands t := (h.placed.hands t _).mp ((hmem _).mpr rfl)
  refine h.move rfl h.hung (h.placed.one hp rfl rfl (fun q b => ?_) (fun b => ?_) (fun b => ?_)
    (fun u hu => ⟨fun he => hu (by cases he; rfl), nofun⟩) ⟨nofun, nofun⟩ List.nodup_nil) (fun _ => Iff.rfl) rfl
    rfl (fun _ _ => ⟨rfl, id⟩) trivial
  · have hout : (p, 0) ∉ L q := h.placed.not_mem (by simp [hp]) q
    by_cases hb : b = (p, 0)
    · simp [hb, hout]
    · simp [hb]
  · by_cases hb : b = (p, 0)
    · simp [hb]
    · simp [hb]
  · by_cases hb : b = (p, 0)
    · simp [hb, Loc.hands]
    · rw [hmem]
      simp [hb, Loc.hands]

/-- A new batch. -/
theorem Inv.malloc (h : Inv file s L place) {p : B} (hl : s.loc t = .take) (hp : s.malloced p = false) :
    Inv file { s.goto t (.batch p (MALLOC_BATCH file - 1)) with malloced := Function.update s.malloced p true } L
      (fun b => if b.1 = p ∧ b.2 < MALLOC_BATCH file then .hands t else place b) := by
  have hnew : ∀ b : Node B, b.1 = p → place b = .nowhere := fun b hb => by
    by_contra hplace
    have := ((h.placed.known b).mpr hplace).1
    rw [hb, hp] at this
    cases this
  have heq : ∀ b x, x ≠ .nowhere → x ≠ .hands t →
      ((if b.1 = p ∧ b.2 < MALLOC_BATCH file then .hands t else place b) = x ↔ place b = x) := fun b x hx hxt => by
    by_cases hb : b.1 = p ∧ b.2 < MALLOC_BATCH file
    · rw [if_pos hb, hnew b hb.1]
      exact iff_of_false hxt.symm hx.symm
    · rw [if_neg hb]
  have hempty : ∀ b, place b ≠ .hands t := fun b hb => by
    have := (h.placed.hands t b).mpr hb
    rw [hl] at this
    cases this
  have hbatch : MALLOC_BATCH file - 1 + 1 = MALLOC_BATCH file := by cases file <;> rfl
  refine h.move rfl h.hung (h.placed.move rfl (fun q b => ?_) (fun b => ?_) (fun b => ?_) (fun b => ?_)
    (fun u hu b => heq b _ nofun fun he => hu (by cases he; rfl)) (nodup_upTo p _)) (fun _ => Iff.rfl) rfl rfl
    (fun _ _ => ⟨rfl, id⟩) trivial
  · rw [heq b (.list q) nofun nofun, h.placed.list]
  · rw [heq b .used nofun nofun]
    exact h.placed.used b
  · change Function.update s.malloced p true b.1 = true ∧ _ ↔ _
    by_cases hb : b.1 = p
    · rw [hb, Function.update_self, hnew b hb]
      by_cases hlt : b.2 < MALLOC_BATCH file
      · simp [hlt]
      · simp [hlt]
    · rw [Function.update_of_ne hb, if_neg fun hand => hb hand.1]
      exact h.placed.known b
  · change b ∈ upTo p (MALLOC_BATCH file - 1) ↔ _
    rw [mem_upTo, hbatch]
    by_cases hb : b.1 = p ∧ b.2 < MALLOC_BATCH file
    · simp [hb]
    · rw [if_neg hb]
      exact iff_of_false hb (hempty b)

@[simp] theorem ready_loc (s : St τ B) (t : τ) : (s.ready t).loc = s.loc := by
  unfold St.ready
  split <;> rfl

@[simp] theorem ready_queued (s : St τ B) (t : τ) : (s.ready t).queued = s.queued := by
  unfold St.ready
  split <;> rfl

theorem Inv.stepThread (h : Inv file s L place) (hs : NodeCache.stepThread file t s = some s') :
    ∃ L' place', Inv file s' L' place' := by
  unfold NodeCache.stepThread at hs
  cases hl : s.loc t with
  | idle =>
    rw [hl] at hs
    cases hs
  | free a r =>
    obtain ⟨h', hready⟩ := h.ready t
    have hl' : (s.ready t).loc t = .free a r := by rw [ready_loc, hl]
    have hput : Inv file ((s.ready t).goto t (.put a r)) L place := h'.goto (by rw [hl']; exact .refl _) hready
    rw [hl] at hs
    dsimp only at hs
    split at hs
    · rename_i u hu
      split at hs
      · rename_i hmax
        obtain rfl := Option.some.inj hs
        refine ⟨L, place, h'.goto (by rw [hl']; exact .refl _) ⟨hready, h'.wired t u hu, fun hnil => ?_⟩⟩
        rw [(h'.hung (.free, t)).length, hnil] at hmax
        exact absurd hmax (Int.not_lt.mpr (Int.natCast_nonneg _))
      · obtain rfl := Option.some.inj hs
        exact ⟨L, place, hput⟩
    · obtain rfl := Option.some.inj hs
      exact ⟨L, place, hput⟩
  | hand u a r =>
    obtain ⟨s₁, hrun, h₁⟩ := h.handOff hl
    rw [hl] at hs
    dsimp only at hs
    rw [hrun] at hs
    obtain rfl := Option.some.inj hs
    exact ⟨_, _, h₁⟩
  | put a r =>
    obtain ⟨s₁, hrun, h₁⟩ := h.append hl
    rw [hl] at hs
    dsimp only at hs
    rw [hrun] at hs
    obtain rfl := Option.some.inj hs
    exact ⟨_, _, h₁⟩
  | alloc =>
    obtain ⟨h', hready⟩ := h.ready t
    have hl' : (s.ready t).loc t = .alloc := by rw [ready_loc, hl]
    rw [hl] at hs
    dsimp only at hs
    split at hs
    · rename_i hcond
      obtain rfl := Option.some.inj hs
      refine ⟨L, place, h'.goto (by rw [hl']; exact .refl _) ⟨hready, ?_, fun hnil => hcond.2 ?_⟩⟩
      · rw [(h'.hung (.free, t)).head] at hcond
        exact List.head?_eq_none_iff.mp hcond.1
      · rw [(h'.hung (.ffree, t)).length, hnil]
        rfl
    · obtain rfl := Option.some.inj hs
      exact ⟨L, place, h'.goto (by rw [hl']; exact .refl _) trivial⟩
  | refill =>
    rw [hl] at hs
    obtain rfl := Option.some.inj hs
    exact ⟨_, _, h.refill hl⟩
  | take =>
    rw [hl] at hs
    obtain ⟨a, ha, hs⟩ := Option.map_eq_some_iff.mp hs
    subst hs
    obtain ⟨-, l, -, h₁⟩ := h.pop hl ha
    exact ⟨_, _, h₁⟩
  | batch p i =>
    rw [hl] at hs
    cases i with
    | zero =>
      obtain rfl := Option.some.inj hs
      exact ⟨_, _, h.batch_zero hl⟩
    | succ i =>
      obtain rfl := Option.some.inj hs
      refine ⟨L, place, h.goto ?_ trivial⟩
      rw [hl]
      exact upTo_succ p i

omit [DecidableEq τ] [DecidableEq B] in
theorem Placed.same (h : Placed file s L place) (hused : s'.used = s.used) (hmalloced : s'.malloced = s.malloced)
    (hloc : s'.loc = s.loc) : Placed file s' L place :=
  ⟨h.list, hused ▸ h.used, hmalloced ▸ h.known, hloc ▸ h.hands, hloc ▸ h.nodup⟩

/-- A cache is made known to `call_rcu`, when it is initialised. -/
theorem Inv.wire (h : Inv file s L place) (u : τ) :
    Inv file { s.ready u with queued := Function.update s.queued u true } L place := by
  obtain ⟨h', hready⟩ := h.ready u
  refine ⟨h'.hung, h'.placed.same rfl rfl rfl, h'.both, h'.wired, fun v hv => ?_, h'.loc⟩
  change Ready (s.ready u) v
  change Function.update s.queued u true v = true at hv
  by_cases hvu : v = u
  · rw [hvu]
    exact hready
  · rw [Function.update_of_ne hvu, ← ready_queued s u] at hv
    exact h'.queued v hv

theorem Inv.wireCb (h : Inv file s L place) (t : τ) (hu : s.queued u = true) :
    Inv file { s.ready t with
      tncp := Function.update (s.ready t).tncp t (some u)
      queued := Function.update (s.ready t).queued u false } L place := by
  obtain ⟨h', -⟩ := h.ready t
  have hready : Ready (s.ready t) u := h'.queued u (by rw [ready_queued]; exact hu)
  refine ⟨h'.hung, h'.placed.same rfl rfl rfl, h'.both, fun v w hv => ?_, fun v hv => ?_, h'.loc⟩
  · change Ready (s.ready t) w
    change Function.update (s.ready t).tncp t (some u) v = some w at hv
    by_cases hvt : v = t
    · rw [hvt, Function.update_self] at hv
      obtain rfl := Option.some.inj hv
      exact hready
    · rw [Function.update_of_ne hvt] at hv
      exact h'.wired v w hv
  · change Ready (s.ready t) v
    change Function.update (s.ready t).queued u false v = true at hv
    by_cases hvu : v = u
    · rw [hvu, Function.update_self] at hv
      cases hv
    · rw [Function.update_of_ne hvu] at hv
      exact h'.queued v hv

/-- A node in use is on no list. -/
theorem Inv.store (h : Inv file s L place) (ha : s.used a = true) (x : Option (Node B)) :
    Inv file { s with ptr := Function.update s.ptr (.link a) x } L place := by
  have hung : Conc.Hung (Function.update s.ptr (.link a) x) s.tail s.nfree L := fun q =>
    h.hung.keep q fun y hy => Function.update_of_ne (fun he => by
      obtain rfl | ⟨b, hb, rfl⟩ := Conc.mem_slots hy
      · cases he
      · cases he
        exact h.placed.not_mem (by simp [(h.placed.used a).mp ha]) q hb) ..
  exact ⟨hung, h.placed.same rfl rfl rfl, h.both, h.wired, h.queued, h.loc⟩

omit [DecidableEq τ] [DecidableEq B] in
theorem Inv.init (h : Init s) : Inv file s (fun _ => []) (fun _ => .nowhere) := by
  refine ⟨fun q => ?_, ⟨fun _ _ => by simp, fun a => by simp [h.used a], fun a => by simp [h.malloced a.1],
    fun t a => by simp [h.loc t, Loc.hands], fun t => by simp [h.loc t, Loc.hands]⟩, fun t => by simp [h.tail],
    fun t u hu => ?_, fun u hu => ?_, fun t => by rw [h.loc t]; trivial⟩
  · refine ⟨?_, fun x hx => ?_, fun _ => rfl, h.nfree q, List.nodup_nil⟩
    · change Conc.onward s.ptr (.head q) = none
      rw [Conc.onward, h.ptr q]
      rfl
    · rw [h.tail q] at hx
      cases hx
  · rw [h.tncp t] at hu
    cases hu
  · rw [h.queued u] at hu
    cases hu

/-- **Every step** keeps the nodes where they can be found. -/
theorem Inv.step {act : Act τ B} (h : Inv file s L place) (hs : next file act s = some s') :
    ∃ L' place', Inv file s' L' place' := by
  cases act with
  | step t => exact h.stepThread hs
  | store a x =>
    simp only [next] at hs
    split at hs
    · rename_i ha
      obtain rfl := Option.some.inj hs
      exact ⟨L, place, h.store ha x⟩
    · cases hs
  | callFree t a =>
    simp only [next] at hs
    split at hs
    · rename_i hl
      split at hs
      · rename_i ha
        obtain rfl := Option.some.inj hs
        exact ⟨_, _, h.callFree hl ha⟩
      · cases hs
    · cases hs
  | callAlloc t =>
    simp only [next] at hs
    split at hs
    · rename_i hl
      obtain rfl := Option.some.inj hs
      exact ⟨L, place, h.goto (by rw [hl]; exact .refl _) trivial⟩
    · cases hs
  | wire u =>
    simp only [next] at hs
    split at hs
    · obtain rfl := Option.some.inj hs
      exact ⟨L, place, h.wire u⟩
    · cases hs
  | wireCb t u =>
    simp only [next] at hs
    split at hs
    · split at hs
      · rename_i hu
        obtain rfl := Option.some.inj hs
        exact ⟨L, place, h.wireCb t hu⟩
      · cases hs
    · cases hs
  | malloc t p =>
    simp only [next] at hs
    split at hs
    · rename_i hl
      split at hs
      · rename_i hcond
        obtain rfl := Option.some.inj hs
        exact ⟨_, _, h.malloc hl hcond.2⟩
      · cases hs
    · cases hs

/-! ### Whole runs -/

/-- The node that the next step of a thread hands out. -/
def handedOut (s : St τ B) (t : τ) : Option (Node B) :=
  match s.loc t with
  | .take => s.ptr (.head (.free, t))
  | .batch p 0 => some (p, 0)
  | _ => none

/-- The lists of the caches are `L`, and each node is at one place. -/
structure Conserved (file : File) (s : St τ B) (L : Which × τ → List (Node B)) : Prop where
  /-- the lists, their last links and their lengths -/
  hung : Conc.Hung s.ptr s.tail s.nfree L
  /-- a cache that is wired has lists -/
  wired : ∀ t u w, s.tncp t = some u → s.tail (w, u) ≠ none
  /-- no node is on two lists -/
  apart : ∀ q q' a, a ∈ L q → a ∈ L q' → q = q'
  /-- a node on a list, or with a thread, is free, and the threads have different nodes -/
  unused : ∀ q a, a ∈ L q → s.used a = false
  hands : ∀ t a, a ∈ (s.loc t).hands → s.used a = false ∧ (∀ q, a ∉ L q) ∧ ∀ u, a ∈ (s.loc u).hands → u = t
  /-- a node is not handed out while in use -/
  handedOut : ∀ t a, handedOut s t = some a → s.used a = false
  /-- the nodes are those that `malloc` returned, and none is lost -/
  kept : ∀ a, s.malloced a.1 = true ∧ a.2 < MALLOC_BATCH file ↔
    s.used a = true ∨ (∃ q, a ∈ L q) ∨ ∃ t, a ∈ (s.loc t).hands
  /-- a thread inside the functions has a next step: there is no store through `NULL` -/
  runs : ∀ t, s.loc t ≠ .idle → s.loc t = .take ∧ s.ptr (.head (.free, t)) = none ∨ ∃ s', stepThread file t s = some s'

omit [DecidableEq τ] [DecidableEq B] in
/-- The places are all there are. -/
theorem Placed.kept (h : Placed file s L place) (a : Node B) : s.malloced a.1 = true ∧ a.2 < MALLOC_BATCH file ↔
    s.used a = true ∨ (∃ q, a ∈ L q) ∨ ∃ t, a ∈ (s.loc t).hands := by
  rw [h.known, h.used]
  simp only [h.list, h.hands]
  cases place a with
  | nowhere => simp
  | used => simp
  | list q => simp
  | hands t => simp

theorem Inv.handedOut (h : Inv file s L place) (ha : handedOut s t = some a) : s.used a = false := by
  unfold NodeCache.handedOut at ha
  split at ha
  · rename_i hl
    exact (h.pop hl ha).1
  · rename_i p hl
    obtain rfl := Option.some.inj ha
    refine h.placed.unused ?_
    rw [(h.placed.hands t (p, 0)).mp (by rw [hl]; exact List.mem_cons_self)]
    nofun
  · cases ha

/-- No store of a thread goes through `NULL`. -/
theorem Inv.runs (h : Inv file s L place) (hl : s.loc t ≠ .idle) :
    s.loc t = .take ∧ s.ptr (.head (.free, t)) = none ∨ ∃ s', NodeCache.stepThread file t s = some s' := by
  unfold NodeCache.stepThread
  cases hloc : s.loc t with
  | idle => exact absurd hloc hl
  | free a r =>
    refine .inr ?_
    dsimp only
    split
    · split
      · exact ⟨_, rfl⟩
      · exact ⟨_, rfl⟩
    · exact ⟨_, rfl⟩
  | hand u a r =>
    obtain ⟨s₁, hrun, -⟩ := h.handOff hloc
    refine .inr ⟨s₁.goto t (.put a r), ?_⟩
    dsimp only
    rw [hrun]
    rfl
  | put a r =>
    obtain ⟨s₁, hrun, -⟩ := h.append hloc
    refine .inr ⟨s₁.goto t r.loc, ?_⟩
    dsimp only
    rw [hrun]
    rfl
  | alloc =>
    refine .inr ?_
    dsimp only
    split
    · exact ⟨_, rfl⟩
    · exact ⟨_, rfl⟩
  | refill => exact .inr ⟨_, rfl⟩
  | take =>
    cases hhead : s.ptr (.head (.free, t)) with
    | none => exact .inl ⟨rfl, rfl⟩
    | some a => exact .inr ⟨_, rfl⟩
  | batch p i => cases i with
    | zero => exact .inr ⟨_, rfl⟩
    | succ i => exact .inr ⟨_, rfl⟩

theorem Inv.conserved (h : Inv file s L place) : Conserved file s L where
  hung := h.hung
  wired t u w hu := h.wired t u hu w
  apart := h.placed.apart
  unused q a ha := h.placed.unused (by rw [(h.placed.list q a).mp ha]; nofun)
  hands t a ha := by
    have hp := (h.placed.hands t a).mp ha
    refine ⟨h.placed.unused (by simp [hp]), h.placed.not_mem (by simp [hp]), fun u hu => ?_⟩
    rw [h.placed.hands, hp] at hu
    cases hu
    rfl
  handedOut _ _ ha := h.handedOut ha
  kept := h.placed.kept
  runs _ hl := h.runs hl

end

/-- **No node is lost.** In every run each node that `malloc` has returned is in use, on one list of one cache, or
with the thread that frees it, and the caches know the lengths and the last links of their lists. -/
theorem cache_conserved (file : File) {τ B : Type} [DecidableEq τ] [DecidableEq B] {s : St τ B}
    (h : (sys τ B file).Reach Conc.Sys.always s) : ∃ L, Conserved file s L := by
  obtain ⟨L, place, hinv⟩ := h.inv (I := fun s => ∃ L place, Inv file s L place) (fun s hs => ⟨_, _, .init hs⟩)
    fun act s s' ⟨_, _, hi⟩ _ hs => hi.step hs
  exact ⟨L, hinv.conserved⟩

/-- All memory is zero. -/
def zero : St ℕ ℕ := ⟨fun _ => none, fun _ => none, fun _ => 0, fun _ => none, fun _ => false, fun _ => false,
  fun _ => false, fun _ => .idle⟩

theorem zero_init : (sys ℕ ℕ .tree).init zero :=
  ⟨fun _ => rfl, fun _ => rfl, fun _ => rfl, fun _ => rfl, fun _ => rfl, fun _ => rfl, fun _ => rfl, fun _ => rfl⟩

/-- The cache of thread 0 is wired to the one of thread 1. Thread 0 gets a batch and has put three nodes of it on its
list when thread 1, which has no cache of its own nodes yet, gets a batch too and puts one. -/
def twoBatches : List (Act ℕ ℕ) :=
  [.wire 1, .wireCb 0 1, .callAlloc 0, .step 0, .malloc 0 7] ++ List.replicate 9 (.step 0) ++
    [.callAlloc 1, .step 1, .malloc 1 8] ++ List.replicate 3 (.step 1)

theorem cache_conserved_first : ∃ (s : St ℕ ℕ) (L : Which × ℕ → List (Node ℕ)), s.tncp 0 = some 1 ∧
    [s.nfree (.free, 0), s.nfree (.free, 1)] = [3, 1] ∧
    [s.ptr (.head (.free, 0)), s.ptr (.link (7, 32767)), s.ptr (.head (.free, 1))] =
      [some (7, 32767), some (7, 32766), some (8, 32767)] ∧ Conserved .tree s L := by
  have hrun : ((sys ℕ ℕ .tree).run Conc.Sys.always twoBatches zero).map (fun s => (s.tncp 0,
      [s.nfree (.free, 0), s.nfree (.free, 1)],
      [s.ptr (.head (.free, 0)), s.ptr (.link (7, 32767)), s.ptr (.head (.free, 1))])) =
        some (some 1, [3, 1], [some (7, 32767), some (7, 32766), some (8, 32767)]) := by
    decide +kernel
  obtain ⟨s, hs, hd⟩ := Option.map_eq_some_iff.mp hrun
  obtain ⟨hw, hd⟩ := Prod.mk.inj hd
  obtain ⟨hn, hp⟩ := Prod.mk.inj hd
  obtain ⟨L, hL⟩ := cache_conserved .tree (Conc.Sys.run_reach (.init zero_init) hs)
  exact ⟨s, L, hw, hn, hp, hL⟩

end NodeCache
end Perfbook
