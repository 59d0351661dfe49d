/-
# What the push/pop-all stack keeps, as long as no node is freed too early

Every allocated node has one owner: the pusher that made it until its
`cmpxchg` succeeds, then the stack, then the popper whose exchange took it.
Only the owner stores to a node or frees it. `LocInv` says what is true of a
thread at each place of the code, `Held` of the nodes the stack or a popper
holds (a chain of pointers, newest first), `Inv` puts them together.

The one access that is not the owner's is the last test of `list_push`, which
reads `newnode->next` after the node is linked. `FreeOk` excludes the runs in
which the node is freed before that read; `inv_step` is the step lemma for
the others.
-/
import Perfbook.Lifo.Push
import Perfbook.Conc.Path
import Mathlib.Data.List.Infix

namespace Perfbook
namespace Lifo

open Conc

variable {τ V : Type}

/-- Who may store to a node and free it. -/
inductive Owner (τ : Type)
  | pusher (t : τ)
  | stack
  | popper (t : τ)
deriving DecidableEq

namespace St

/-- What the exchange of `t` took and `t` has not passed to `foo` yet. -/
def todo (s : St τ V) (t : τ) : List Ptr := (s.batch t).drop (s.passed t).length

/-- The pushes whose nodes were passed to `foo`. -/
def doneIds (s : St τ V) : List ℕ := s.done.map fun d => d.2.1

/-- `p->next`, with `NULL` after `NULL`. -/
def nextOf (s : St τ V) (a : Option Addr) : Option Addr := a.bind fun a => (s.mem a).next

end St

/-- The node that the final test of `list_push` is about to read. -/
def testing : Loc V → Option Addr
  | .check n _ => some n.addr
  | _ => none

/-- The condition on the steps: `free(p)` runs only when no thread is about to
make the final test of the `list_push` that linked `p`. -/
def FreeOk : Act τ V → St τ V → Prop
  | .step t _, s =>
    match s.loc t with
    | .free p _ => ∀ u, testing (s.loc u) ≠ some p.addr
    | _ => True
  | _, _ => True

/-- The node is allocated, and `o` owns it. -/
def Owns (own : Addr → Option (Owner τ)) (s : St τ V) (o : Owner τ) (p : Ptr) : Prop :=
  own p.addr = some o ∧ s.live p.addr = some p.id

/-- The nodes `l` are a chain from `a`; `o` owns them, they were linked, hold
what they were made for and were not passed to `foo`. -/
structure Held (own : Addr → Option (Owner τ)) (s : St τ V) (o : Owner τ) (a : Option Addr)
    (l : List Ptr) : Prop where
  owns : ∀ p ∈ l, Owns own s o p
  linked : ∀ p ∈ l, p.id ∈ s.linked
  fresh : ∀ p ∈ l, p.id ∉ s.doneIds
  val : ∀ p ∈ l, s.arg p.id = some (s.mem p.addr).val
  nodup : (l.map Ptr.addr).Nodup
  path : Path s.nextOf a (l.map fun p => some p.addr) none

/-- A pusher's own node, not linked yet. -/
def Mine (own : Addr → Option (Owner τ)) (s : St τ V) (t : τ) (n : Ptr) : Prop :=
  Owns own s (.pusher t) n ∧ n.id ∉ s.linked

/-- What is true of thread `t` at a place of the code. -/
def LocInv (own : Addr → Option (Owner τ)) (s : St τ V) (t : τ) : Loc V → Prop
  | .idle | .alloc _ | .xchg => s.todo t = []
  | .initVal v n => Mine own s t n ∧ s.arg n.id = some v ∧ s.todo t = []
  | .readTop n | .setNext n _ | .loadNext n =>
    Mine own s t n ∧ s.arg n.id = some (s.mem n.addr).val ∧ s.todo t = []
  | .cmpxchg n old =>
    Mine own s t n ∧ s.arg n.id = some (s.mem n.addr).val ∧ (s.mem n.addr).next = old ∧
      s.todo t = []
  | .check n old =>
    s.todo t = [] ∧
      ((Mine own s t n ∧ s.arg n.id = some (s.mem n.addr).val ∧ (s.mem n.addr).next ≠ old) ∨
        (n.id ∈ s.linked ∧ s.live n.addr = some n.id ∧ (s.mem n.addr).next = old))
  | .loop p => p = (s.todo t).head? ∧ Held own s (.popper t) (p.map Ptr.addr) (s.todo t)
  | .foo p nx => ∃ l, s.todo t = p :: l ∧ nx = l.head? ∧
      Held own s (.popper t) (some p.addr) (s.todo t) ∧ (s.mem p.addr).next = nx.map Ptr.addr
  | .free p nx => nx = (s.todo t).head? ∧ Held own s (.popper t) (nx.map Ptr.addr) (s.todo t) ∧
      Owns own s (.popper t) p ∧ p.addr ∉ (s.todo t).map Ptr.addr

/-- The invariant, with `own` the owner of each node. -/
structure InvOf (own : Addr → Option (Owner τ)) (s : St τ V) : Prop where
  loc : ∀ t, LocInv own s t (s.loc t)
  stack : Held own s .stack s.top s.since
  bad : s.bad = false
  fresh : ∀ a i, s.live a = some i → i < s.fresh
  linkedFresh : ∀ i ∈ s.linked, i < s.fresh
  unique : ∀ a b i, s.live a = some i → s.live b = some i → a = b
  linkedNodup : s.linked.Nodup
  doneNodup : s.doneIds.Nodup
  doneLinked : ∀ i ∈ s.doneIds, i ∈ s.linked
  doneVal : ∀ d ∈ s.done, s.arg d.2.1 = some d.2.2
  placed : ∀ i ∈ s.linked, i ∈ s.since.map Ptr.id ∨ (∃ t, i ∈ (s.todo t).map Ptr.id) ∨ i ∈ s.doneIds
  passed : ∀ t, (s.passed t).map Prod.fst = ((s.batch t).take (s.passed t).length).map Ptr.id
  passedDone : ∀ t, ∀ e ∈ s.passed t, (t, e) ∈ s.done

def Inv (s : St τ V) : Prop := ∃ own, InvOf own s

/-! ### What the steps of others leave alone -/

variable {own own' : Addr → Option (Owner τ)} {s s' : St τ V} {t u : τ} {o : Owner τ}
  {a : Option Addr} {l : List Ptr}

theorem Held.frame (h : Held own s o a l)
    (hown : ∀ p, Owns own s o p → own' p.addr = own p.addr ∧ s'.live p.addr = s.live p.addr ∧
      s'.mem p.addr = s.mem p.addr)
    (hl : ∀ i ∈ s.linked, i ∈ s'.linked) (hd : ∀ p ∈ l, p.id ∉ s'.doneIds)
    (ha : ∀ p ∈ l, s'.arg p.id = s.arg p.id) : Held own' s' o a l where
  owns p hp := by
    obtain ⟨h1, h2, -⟩ := hown p (h.owns p hp)
    exact ⟨h1.trans (h.owns p hp).1, h2.trans (h.owns p hp).2⟩
  linked p hp := hl _ (h.linked p hp)
  fresh := hd
  val p hp := by rw [ha p hp, h.val p hp, (hown p (h.owns p hp)).2.2]
  nodup := h.nodup
  path := h.path.congr fun c hc => by
    obtain ⟨p, hp, rfl⟩ := List.mem_map.mp hc
    simp [St.nextOf, (hown p (h.owns p hp)).2.2]

/-- What a step of another thread leaves alone, as seen by thread `u`. -/
structure Rely (own own' : Addr → Option (Owner τ)) (s s' : St τ V) (u : τ) : Prop where
  mine : ∀ p, Owns own s (.pusher u) p ∨ Owns own s (.popper u) p →
    own' p.addr = own p.addr ∧ s'.live p.addr = s.live p.addr ∧ s'.mem p.addr = s.mem p.addr
  linked : ∀ i ∈ s.linked, i ∈ s'.linked
  unlinked : ∀ p, Mine own s u p → p.id ∉ s'.linked
  done : ∀ p, Owns own s (.popper u) p → p.id ∉ s.doneIds → p.id ∉ s'.doneIds
  arg : ∀ b i, s.live b = some i → s'.arg i = s.arg i
  todo : s'.todo u = s.todo u

/-- A linked node that `list_push` still tests is left alone. -/
def Checked (s s' : St τ V) (l : Loc V) : Prop :=
  ∀ n old, l = .check n old → n.id ∈ s.linked → s.live n.addr = some n.id →
    s'.live n.addr = s.live n.addr ∧ s'.mem n.addr = s.mem n.addr

theorem Rely.mine_node (h : Rely own own' s s' u) {n : Ptr} (hn : Mine own s u n) :
    Mine own' s' u n ∧ s'.mem n.addr = s.mem n.addr ∧ s'.arg n.id = s.arg n.id := by
  obtain ⟨h1, h2, h3⟩ := h.mine n (.inl hn.1)
  exact ⟨⟨⟨h1.trans hn.1.1, h2.trans hn.1.2⟩, h.unlinked n hn⟩, h3, h.arg _ _ hn.1.2⟩

theorem Rely.held (h : Rely own own' s s' u) (hh : Held own s (.popper u) a l) :
    Held own' s' (.popper u) a l :=
  hh.frame (fun p hp => h.mine p (.inr hp)) h.linked
    (fun p hp => h.done p (hh.owns p hp) (hh.fresh p hp)) (fun p hp => h.arg _ _ (hh.owns p hp).2)

/-- What holds of `u` at its place is not disturbed by another thread's step. -/
theorem LocInv.frame {l : Loc V} (hi : LocInv own s u l) (h : Rely own own' s s' u)
    (hc : Checked s s' l) : LocInv own' s' u l := by
  revert hi hc
  cases l with
  | idle | alloc v | xchg => exact fun hi _ => h.todo.trans hi
  | initVal v n =>
    rintro ⟨hm, ha, ht⟩ -
    obtain ⟨hm', -, ha'⟩ := h.mine_node hm
    exact ⟨hm', ha'.trans ha, h.todo.trans ht⟩
  | readTop n | setNext n old | loadNext n =>
    rintro ⟨hm, ha, ht⟩ -
    obtain ⟨hm', hv, ha'⟩ := h.mine_node hm
    exact ⟨hm', by rw [ha', hv, ha], h.todo.trans ht⟩
  | cmpxchg n old =>
    rintro ⟨hm, ha, hx, ht⟩ -
    obtain ⟨hm', hv, ha'⟩ := h.mine_node hm
    exact ⟨hm', by rw [ha', hv, ha], by rw [hv, hx], h.todo.trans ht⟩
  | check n old =>
    rintro ⟨ht, ⟨hm, ha, hx⟩ | ⟨hl, hv, hx⟩⟩ hc
    · obtain ⟨hm', hv, ha'⟩ := h.mine_node hm
      exact ⟨h.todo.trans ht, .inl ⟨hm', by rw [ha', hv, ha], by rw [hv]; exact hx⟩⟩
    · obtain ⟨h1, h2⟩ := hc n old rfl hl hv
      exact ⟨h.todo.trans ht, .inr ⟨h.linked _ hl, h1.trans hv, by rw [h2, hx]⟩⟩
  | loop p =>
    rintro ⟨hp, hh⟩ -
    rw [LocInv, h.todo]
    exact ⟨hp, h.held hh⟩
  | foo p nx =>
    rintro ⟨l, hl, hn, hh, hx⟩ -
    have hp : p ∈ s.todo u := by rw [hl]; exact List.mem_cons_self
    rw [LocInv, h.todo]
    exact ⟨l, hl, hn, h.held hh, by rw [(h.mine p (.inr (hh.owns p hp))).2.2, hx]⟩
  | free p nx =>
    rintro ⟨hn, hh, ho, hp⟩ -
    obtain ⟨h1, h2, -⟩ := h.mine p (.inr ho)
    rw [LocInv, h.todo]
    exact ⟨hn, h.held hh, ⟨h1.trans ho.1, h2.trans ho.2⟩, hp⟩

/-! ### The steps -/

theorem touch_eq {p : Ptr} (hp : s.live p.addr = some p.id) : s.touch p = s := by
  obtain ⟨⟩ := s
  simp_all [St.touch]

/-- A node has one owner. -/
theorem Owns.ne {o' : Owner τ} {p q : Ptr} (hp : Owns own s o p) (hq : Owns own s o' q)
    (ho : o ≠ o') : p.addr ≠ q.addr :=
  fun e => ho (Option.some.inj (hp.1.symm.trans (e ▸ hq.1)))

theorem Owns.of_free {p : Ptr} {b : Addr} (hp : Owns own s o p) (hb : s.live b = none) :
    p.addr ≠ b := by
  rintro rfl
  have := hp.2
  simp_all

/-- The pointer that is loaded from where a chain starts is its first node. -/
theorem Held.ptr (h : Held own s o a l) : s.ptr a = l.head? ∧ a = l.head?.map Ptr.addr := by
  have hp := h.path
  cases l with
  | nil =>
    have : a = none := hp
    simp [this, St.ptr]
  | cons p l =>
    have : a = some p.addr := hp.1
    simp [this, St.ptr, (h.owns p List.mem_cons_self).2]

theorem Held.tail {p : Ptr} (h : Held own s o a (p :: l)) :
    Held own s o (s.mem p.addr).next l ∧ p.addr ∉ l.map Ptr.addr :=
  ⟨{ owns := fun q hq => h.owns q (List.mem_cons_of_mem _ hq)
     linked := fun q hq => h.linked q (List.mem_cons_of_mem _ hq)
     fresh := fun q hq => h.fresh q (List.mem_cons_of_mem _ hq)
     val := fun q hq => h.val q (List.mem_cons_of_mem _ hq)
     nodup := (List.nodup_cons.mp h.nodup).2
     path := h.path.2 }, (List.nodup_cons.mp h.nodup).1⟩

theorem inv_init (h : Init s) : Inv s :=
  ⟨fun _ => none,
    { loc := fun t => by
        rw [h.loc t]
        simp [LocInv, St.todo, h.batch t]
      stack := by
        rw [h.since]
        exact ⟨by simp, by simp, by simp, by simp, by simp, h.top⟩
      bad := h.bad
      fresh := fun a i hi => by simp [h.live a] at hi
      linkedFresh := by simp [h.linked]
      unique := fun a _ i hi => by simp [h.live a] at hi
      linkedNodup := by simp [h.linked]
      doneNodup := by simp [St.doneIds, h.done]
      doneLinked := by simp [St.doneIds, h.done]
      doneVal := by simp [h.done]
      placed := by simp [h.linked]
      passed := fun t => by simp [h.passed t]
      passedDone := fun t => by simp [h.passed t] }⟩

variable [DecidableEq τ]

theorem goto_rely {l : Loc V} : Rely own own s (s.goto t l) u where
  mine _ _ := ⟨rfl, rfl, rfl⟩
  linked _ hi := hi
  unlinked _ hp := hp.2
  done _ _ hp := hp
  arg _ _ _ := rfl
  todo := rfl

theorem Held.goto {l' : Loc V} (h : Held own s o a l) : Held own (s.goto t l') o a l :=
  h.frame (fun _ _ => ⟨rfl, rfl, rfl⟩) (fun _ hi => hi) h.fresh (fun _ _ => rfl)

/-- What holds at the places of all threads after `t` went on to `l` and the
rest of the state went from `s` to `s'`. -/
theorem loc_goto {l : Loc V} (hi : ∀ u, LocInv own s u (s.loc u)) (hloc : s'.loc = s.loc)
    (hl : LocInv own' s' t l) (hr : ∀ u, u ≠ t → Rely own own' s s' u)
    (hc : ∀ u, u ≠ t → Checked s s' (s.loc u)) (u : τ) :
    LocInv own' (s'.goto t l) u ((s'.goto t l).loc u) := by
  by_cases hu : u = t
  · subst hu
    have : (s'.goto u l).loc u = l := by simp [St.goto]
    rw [this]
    exact hl.frame goto_rely fun _ _ _ _ _ => ⟨rfl, rfl⟩
  · have : (s'.goto t l).loc u = s.loc u := by simp [St.goto, hu, hloc]
    rw [this]
    exact ((hi u).frame (hr u hu) (hc u hu)).frame goto_rely fun _ _ _ _ _ => ⟨rfl, rfl⟩

/-- A thread goes on, and nothing else changes. -/
theorem InvOf.goto {l : Loc V} (h : InvOf own s) (hl : LocInv own s t l) :
    InvOf own (s.goto t l) :=
  { h with
    loc := loc_goto h.loc rfl hl
      (fun _ _ => ⟨fun _ _ => ⟨rfl, rfl, rfl⟩, fun _ hi => hi, fun _ hp => hp.2, fun _ _ hp => hp,
        fun _ _ _ => rfl, rfl⟩) (fun _ _ _ _ _ _ _ => ⟨rfl, rfl⟩)
    stack := h.stack.goto }

/-- A pusher stores to its own node. -/
theorem InvOf.store {n : Ptr} {x : Node V} {l : Loc V} (h : InvOf own s) (hm : Mine own s t n)
    (hl : LocInv own (s.store n x) t l) : InvOf own ((s.store n x).goto t l) := by
  have hst : Held own (s.store n x) .stack s.top s.since :=
    h.stack.frame (fun p hp => ⟨rfl, rfl, by simp [St.store, hp.ne hm.1]⟩)
      (fun _ hi => hi) h.stack.fresh (fun _ _ => rfl)
  refine { h with stack := hst.goto, loc := loc_goto h.loc rfl hl (fun u hu => ?_) ?_ }
  · refine ⟨fun p hp => ?_, fun _ hi => hi, fun _ hp => hp.2, fun _ _ hp => hp, fun _ _ _ => rfl, rfl⟩
    have hne : p.addr ≠ n.addr := by
      rcases hp with hp | hp
      · exact hp.ne hm.1 (by simpa using hu)
      · exact hp.ne hm.1 (by simp)
    exact ⟨rfl, rfl, by simp [St.store, hne]⟩
  · intro u _ n' old _ hn hv
    have hne : n'.addr ≠ n.addr := fun e => hm.2 (by
      rwa [Option.some.inj (hv.symm.trans (e ▸ hm.1.2))] at hn)
    exact ⟨rfl, by simp [St.store, hne]⟩

theorem InvOf.malloc {b : Addr} {junk : Node V} {v : V} (h : InvOf own s) (hb : s.live b = none)
    (ht : s.todo t = []) :
    InvOf (Function.update own b (some (.pusher t)))
      ((s.malloc b v junk).goto t (.initVal v ⟨b, s.fresh⟩)) := by
  have hne : ∀ {o : Owner τ} {p : Ptr}, Owns own s o p → p.addr ≠ b := fun hp => hp.of_free hb
  have hid : ∀ {c : Addr} {i : ℕ}, s.live c = some i → i ≠ s.fresh := fun hp => (h.fresh _ _ hp).ne
  have hlf : ∀ i ∈ s.linked, i ≠ s.fresh := fun i hi => (h.linkedFresh i hi).ne
  have hst : Held (Function.update own b (some (.pusher t))) (s.malloc b v junk) .stack s.top
      s.since :=
    h.stack.frame (fun p hp => by simp [St.malloc, hne hp]) (fun _ hi => hi) h.stack.fresh
      fun p hp => by simp [St.malloc, hid (h.stack.owns p hp).2]
  refine
    { h with
      loc := loc_goto h.loc rfl ?_ (fun u _ => ?_) ?_
      stack := hst.goto
      fresh := fun c i hc => ?_
      linkedFresh := fun i hi => (h.linkedFresh i hi).trans (Nat.lt_succ_self _)
      unique := fun c d i hc hd => ?_
      doneVal := fun d hd => ?_ }
  · exact ⟨⟨⟨by simp, by simp [St.malloc]⟩, fun hl => hlf _ hl rfl⟩, by simp [St.malloc], ht⟩
  · refine ⟨fun p hp => ?_, fun _ hi => hi, fun _ hp => hp.2, fun _ _ hp => hp, fun c i hc => ?_, rfl⟩
    · simp [St.malloc, hp.elim hne hne]
    · simp [St.malloc, hid hc]
  · intro u _ n old _ _ hv
    have : n.addr ≠ b := by
      rintro rfl
      simp_all
    simp [St.malloc, this]
  · by_cases hcb : c = b
    · subst hcb
      have : s.fresh = i := by simpa [St.goto, St.malloc] using hc
      exact this ▸ Nat.lt_succ_self _
    · exact (h.fresh c i (by simpa [St.goto, St.malloc, hcb] using hc)).trans (Nat.lt_succ_self _)
  · have hlive : ∀ e, ((s.malloc b v junk).goto t (.initVal v ⟨b, s.fresh⟩)).live e = some i →
        (e = b ∧ i = s.fresh) ∨ (s.live e = some i ∧ i ≠ s.fresh) := by
      intro e he
      by_cases heb : e = b
      · left
        simp_all [St.goto, St.malloc]
      · right
        have : s.live e = some i := by simpa [St.goto, St.malloc, heb] using he
        exact ⟨this, hid this⟩
    rcases hlive c hc with ⟨h1, h2⟩ | ⟨h1, h2⟩ <;> rcases hlive d hd with ⟨h3, h4⟩ | ⟨h3, h4⟩
    · rw [h1, h3]
    · exact absurd h2 h4
    · exact absurd h4 h2
    · exact h.unique c d i h1 h3
  · have : d.2.1 ≠ s.fresh := hlf _ (h.doneLinked _ (List.mem_map.mpr ⟨d, hd, rfl⟩))
    simpa [St.goto, St.malloc, this] using h.doneVal d hd

/-- The `cmpxchg` of `t` succeeds: its node goes to the stack. -/
theorem InvOf.link {n : Ptr} (h : InvOf own s) (hm : Mine own s t n)
    (ha : s.arg n.id = some (s.mem n.addr).val) (hx : (s.mem n.addr).next = s.top)
    (ht : s.todo t = []) :
    InvOf (Function.update own n.addr (some .stack)) ((s.link n).goto t (.check n s.top)) := by
  have hne : ∀ {p : Ptr}, p ∈ s.since → p.addr ≠ n.addr := fun hp =>
    (h.stack.owns _ hp).ne hm.1 (by simp)
  have hsub : ∀ i ∈ s.linked, i ∈ s.linked ++ [n.id] := fun i hi => List.mem_append_left _ hi
  have hu : ∀ {u : τ} {p : Ptr}, u ≠ t → Owns own s (.pusher u) p ∨ Owns own s (.popper u) p →
      p.addr ≠ n.addr := by
    rintro u p hu (hp | hp)
    · exact hp.ne hm.1 (by simpa using hu)
    · exact hp.ne hm.1 (by simp)
  have hst : Held (Function.update own n.addr (some .stack)) (s.link n) .stack (some n.addr)
      (n :: s.since) :=
    { owns := List.forall_mem_cons.mpr ⟨⟨by simp, hm.1.2⟩, fun p hp =>
        ⟨by simpa [hne hp] using (h.stack.owns p hp).1, (h.stack.owns p hp).2⟩⟩
      linked := List.forall_mem_cons.mpr ⟨by simp [St.link], fun p hp => hsub _ (h.stack.linked p hp)⟩
      fresh := List.forall_mem_cons.mpr ⟨fun hd => hm.2 (h.doneLinked _ hd), h.stack.fresh⟩
      val := List.forall_mem_cons.mpr ⟨ha, h.stack.val⟩
      nodup := List.nodup_cons.mpr ⟨fun hc => by
        obtain ⟨p, hp, he⟩ := List.mem_map.mp hc
        exact hne hp he, h.stack.nodup⟩
      path := ⟨rfl, (show (s.link n).nextOf (some n.addr) = s.top from hx) ▸ h.stack.path⟩ }
  refine
    { h with
      loc := loc_goto h.loc rfl ⟨ht, .inr ⟨by simp [St.link], hm.1.2, hx⟩⟩ (fun u hut => ?_)
        fun _ _ _ _ _ _ _ => ⟨rfl, rfl⟩
      stack := hst.goto
      linkedFresh := fun i hi => ?_
      linkedNodup := ?_
      doneLinked := fun i hi => hsub _ (h.doneLinked i hi)
      placed := fun i hi => ?_ }
  · refine ⟨fun p hp => ?_, hsub, fun p hp hl => ?_, fun _ _ hp => hp, fun _ _ _ => rfl, rfl⟩
    · exact ⟨by simp [hu hut hp], rfl, rfl⟩
    · rcases List.mem_append.mp hl with hl | hl
      · exact hp.2 hl
      · have he : p.id = n.id := List.mem_singleton.mp hl
        exact hu hut (.inl hp.1) (h.unique _ _ n.id (he ▸ hp.1.2) hm.1.2)
  · rcases List.mem_append.mp hi with hi | hi
    · exact h.linkedFresh i hi
    · rw [List.mem_singleton.mp hi]
      exact h.fresh _ _ hm.1.2
  · exact List.nodup_append.mpr ⟨h.linkedNodup, List.nodup_singleton _, fun i hi j hj e =>
      hm.2 (List.mem_singleton.mp hj ▸ e ▸ hi)⟩
  · rcases List.mem_append.mp hi with hi | hi
    · rcases h.placed i hi with hp | hp
      · exact .inl (List.mem_cons_of_mem _ hp)
      · exact .inr hp
    · exact .inl (by rw [List.mem_singleton.mp hi]; exact List.mem_cons_self)

/-- The exchange of `t` gives it the whole stack. -/
theorem InvOf.takeAll (h : InvOf own s) (ht : s.todo t = []) :
    InvOf (fun b => if own b = some .stack then some (.popper t) else own b)
      ((s.takeAll t).goto t (.loop (s.ptr s.top))) := by
  have htodo : (s.takeAll t).todo t = s.since := by simp [St.takeAll, St.todo]
  have hother : ∀ u, u ≠ t → (s.takeAll t).todo u = s.todo u := fun u hu => by
    simp [St.takeAll, St.todo, hu]
  have hbatch : ∀ u, u ≠ t → (s.takeAll t).batch u = s.batch u ∧ (s.takeAll t).passed u = s.passed u :=
    fun u hu => by simp [St.takeAll, hu]
  have hheld : Held (fun b => if own b = some .stack then some (.popper t) else own b)
      (s.takeAll t) (.popper t) s.top s.since :=
    { h.stack with owns := fun p hp => ⟨by simp [(h.stack.owns p hp).1], (h.stack.owns p hp).2⟩ }
  refine
    { h with
      loc := loc_goto h.loc rfl ?_ (fun u hut => ?_) fun _ _ _ _ _ _ _ => ⟨rfl, rfl⟩
      stack := Held.goto ⟨by simp [St.goto, St.takeAll], by simp [St.goto, St.takeAll],
        by simp [St.goto, St.takeAll], by simp [St.goto, St.takeAll],
        by simp [St.goto, St.takeAll], rfl⟩
      placed := fun i hi => ?_
      passed := fun u => ?_
      passedDone := fun u => ?_ }
  · obtain ⟨h1, h2⟩ := h.stack.ptr
    refine ⟨h1.trans (by rw [htodo]), ?_⟩
    rw [htodo, h1, ← h2]
    exact hheld
  · refine ⟨fun p hp => ⟨?_, rfl, rfl⟩, fun _ hi => hi, fun _ hp => hp.2, fun _ _ hp => hp,
      fun _ _ _ => rfl, hother u hut⟩
    rcases hp with hp | hp <;> simp [hp.1]
  · rcases h.placed i hi with hp | ⟨u, hu⟩ | hp
    · exact .inr (.inl ⟨t, show i ∈ ((s.takeAll t).todo t).map Ptr.id from htodo ▸ hp⟩)
    · refine .inr (.inl ⟨u, show i ∈ ((s.takeAll t).todo u).map Ptr.id from ?_⟩)
      by_cases hut : u = t
      · rw [hut, ht] at hu
        cases hu
      · rwa [hother u hut]
    · exact .inr (.inr hp)
  · by_cases hut : u = t
    · subst hut
      simp [St.goto, St.takeAll]
    · simpa [St.goto, hbatch u hut] using h.passed u
  · by_cases hut : u = t
    · subst hut
      simp [St.goto, St.takeAll]
    · intro e he
      exact h.passedDone u e (by simpa [St.goto, hbatch u hut] using he)

/-- `t` passes its first node to `foo`. -/
theorem InvOf.pass {p : Ptr} {nx : Option Ptr} (h : InvOf own s)
    (hi : LocInv own s t (.foo p nx)) : InvOf own ((s.pass t p).goto t (.free p nx)) := by
  obtain ⟨l, htl, hnx, hheld, hmem⟩ := hi
  have hlt : (s.passed t).length < (s.batch t).length := by
    by_contra hlt
    simp [St.todo, List.drop_eq_nil_of_le (not_lt.mp hlt)] at htl
  have hpget : (s.batch t)[(s.passed t).length]? = some p := by
    have := congrArg List.head? htl
    simpa [St.todo] using this
  have htodo : (s.pass t p).todo t = l := by
    have : (s.pass t p).todo t = (s.todo t).drop 1 := by simp [St.pass, St.todo]
    rw [this, htl]
    rfl
  have hother : ∀ u, u ≠ t → (s.pass t p).todo u = s.todo u := fun u hu => by
    simp [St.pass, St.todo, hu]
  have hdone : (s.pass t p).doneIds = s.doneIds ++ [p.id] := by simp [St.pass, St.doneIds]
  have hp : p ∈ s.todo t := htl ▸ List.mem_cons_self
  have hpo := hheld.owns p hp
  -- a node that was not passed yet and is not `p` is not passed by this step
  have hfresh : ∀ {q : Ptr} {o : Owner τ}, Owns own s o q → q.addr ≠ p.addr → q.id ∉ s.doneIds →
      q.id ∉ (s.pass t p).doneIds := by
    intro q o hq hne hd hc
    rw [hdone, List.mem_append, List.mem_singleton] at hc
    rcases hc with hc | hc
    · exact hd hc
    · exact hne (h.unique _ _ p.id (hc ▸ hq.2) hpo.2)
  obtain ⟨htail, hnotin⟩ := (htl ▸ hheld : Held own s (.popper t) (some p.addr) (p :: l)).tail
  have hst : Held own (s.pass t p) .stack s.top s.since :=
    h.stack.frame (fun _ _ => ⟨rfl, rfl, rfl⟩) (fun _ hi => hi)
      (fun q hq => hfresh (h.stack.owns q hq) ((h.stack.owns q hq).ne hpo (by simp))
        (h.stack.fresh q hq)) fun _ _ => rfl
  refine
    { h with
      loc := loc_goto h.loc rfl ?_ (fun u hut => ?_) fun _ _ _ _ _ _ _ => ⟨rfl, rfl⟩
      stack := hst.goto
      doneNodup := ?_
      doneLinked := fun i hi => ?_
      doneVal := fun d hd => ?_
      placed := fun i hi => ?_
      passed := fun u => ?_
      passedDone := fun u e he => ?_ }
  · refine ⟨htodo ▸ hnx, ?_, hpo, htodo ▸ hnotin⟩
    rw [htodo, ← hmem]
    exact htail.frame (fun _ _ => ⟨rfl, rfl, rfl⟩) (fun _ hi => hi)
      (fun q hq => hfresh (htail.owns q hq)
        (fun e => hnotin (e ▸ List.mem_map.mpr ⟨q, hq, rfl⟩)) (htail.fresh q hq)) fun _ _ => rfl
  · exact ⟨fun _ _ => ⟨rfl, rfl, rfl⟩, fun _ hi => hi, fun _ hp => hp.2,
      fun q hq hd => hfresh hq (hq.ne hpo (by simpa using hut)) hd, fun _ _ _ => rfl, hother u hut⟩
  · show (s.pass t p).doneIds.Nodup
    rw [hdone]
    exact List.nodup_append.mpr ⟨h.doneNodup, List.nodup_singleton _, fun i hi j hj e =>
      hheld.fresh p hp (List.mem_singleton.mp hj ▸ e ▸ hi)⟩
  · have hi : i ∈ (s.pass t p).doneIds := hi
    rw [hdone, List.mem_append, List.mem_singleton] at hi
    rcases hi with hi | rfl
    · exact h.doneLinked i hi
    · exact hheld.linked p hp
  · rcases List.mem_append.mp hd with hd | hd
    · exact h.doneVal d hd
    · rw [List.mem_singleton.mp hd]
      exact hheld.val p hp
  · have hd : ∀ j, j ∈ s.doneIds ∨ j = p.id → j ∈ (s.pass t p).doneIds := fun j hj => by
      rw [hdone, List.mem_append, List.mem_singleton]
      exact hj
    rcases h.placed i hi with hs | ⟨u, hu⟩ | hs
    · exact .inl hs
    · by_cases hut : u = t
      · rw [hut, htl, List.map_cons, List.mem_cons] at hu
        rcases hu with hu | hu
        · exact .inr (.inr (hd i (.inr hu)))
        · exact .inr (.inl ⟨t, show i ∈ ((s.pass t p).todo t).map Ptr.id from htodo ▸ hu⟩)
      · exact .inr (.inl ⟨u, show i ∈ ((s.pass t p).todo u).map Ptr.id from hother u hut ▸ hu⟩)
    · exact .inr (.inr (hd i (.inl hs)))
  · by_cases hut : u = t
    · subst hut
      have hpu := h.passed u
      simp [St.goto, St.pass, List.take_add_one, hpget, hpu]
    · simpa [St.goto, St.pass, hut] using h.passed u
  · by_cases hut : u = t
    · subst hut
      have he : e ∈ s.passed u ++ [(p.id, (s.mem p.addr).val)] := by
        simpa [St.goto, St.pass] using he
      rcases List.mem_append.mp he with he | he
      · exact List.mem_append_left _ (h.passedDone u e he)
      · rw [List.mem_singleton.mp he]
        exact List.mem_append_right _ List.mem_cons_self
    · have he : e ∈ s.passed u := by simpa [St.goto, St.pass, hut] using he
      exact List.mem_append_left _ (h.passedDone u e he)

/-- `t` frees the node it passed to `foo`. -/
theorem InvOf.release {p : Ptr} {nx : Option Ptr} {junk : Node V} (h : InvOf own s)
    (hi : LocInv own s t (.free p nx))
    (hok : ∀ u n old, s.loc u = .check n old → n.addr ≠ p.addr) :
    InvOf own ((s.release p junk).goto t (.loop nx)) := by
  obtain ⟨hnx, hheld, hpo, hnotin⟩ := hi
  have hkeep : ∀ {q : Ptr}, q.addr ≠ p.addr → own q.addr = own q.addr ∧
      (s.release p junk).live q.addr = s.live q.addr ∧ (s.release p junk).mem q.addr = s.mem q.addr :=
    fun hq => by simp [St.release, hq]
  have hlive : ∀ {b : Addr} {i : ℕ}, (s.release p junk).live b = some i → s.live b = some i := by
    intro b i hb
    by_cases hbp : b = p.addr
    · simp [St.release, hbp] at hb
    · simpa [St.release, hbp] using hb
  have hst : Held own (s.release p junk) .stack s.top s.since :=
    h.stack.frame (fun q hq => hkeep (hq.ne hpo (by simp))) (fun _ hi => hi) h.stack.fresh
      fun _ _ => rfl
  refine
    { h with
      loc := loc_goto h.loc rfl ⟨hnx, ?_⟩ (fun u hut => ?_) fun u _ n old hl _ _ =>
        (hkeep (hok u n old hl)).2
      stack := hst.goto
      fresh := fun b i hb => h.fresh b i (hlive hb)
      unique := fun b c i hb hc => h.unique b c i (hlive hb) (hlive hc) }
  · refine ⟨fun q hq => ?_, hheld.linked, hheld.fresh, fun q hq => ?_, hheld.nodup, ?_⟩
    all_goals
      have hne : ∀ q ∈ s.todo t, q.addr ≠ p.addr := fun q hq e =>
        hnotin (e ▸ List.mem_map.mpr ⟨q, hq, rfl⟩)
    · exact ⟨(hheld.owns q hq).1, (hkeep (hne q hq)).2.1.trans (hheld.owns q hq).2⟩
    · rw [(hkeep (hne q hq)).2.2]
      exact hheld.val q hq
    · refine hheld.path.congr fun c hc => ?_
      obtain ⟨q, hq, rfl⟩ := List.mem_map.mp hc
      simp [St.nextOf, (hkeep (hne q hq)).2.2]
  · refine ⟨fun q hq => hkeep ?_, fun _ hi => hi, fun _ hp => hp.2, fun _ _ hp => hp,
      fun _ _ _ => rfl, rfl⟩
    rcases hq with hq | hq
    · exact hq.ne hpo (by simp)
    · exact hq.ne hpo (by simpa using hut)

/-- **The step lemma.** -/
theorem inv_step {a : Act τ V} (h : Inv s) (hok : FreeOk a s) (hn : next a s = some s') : Inv s' := by
  obtain ⟨own, h⟩ := h
  cases a with
  | push t v =>
    have hl := h.loc t
    cases hloc : s.loc t <;> simp only [next, hloc, reduceCtorEq, Option.some.injEq] at hn
    subst hn
    rw [hloc] at hl
    exact ⟨own, h.goto hl⟩
  | popAll t =>
    have hl := h.loc t
    cases hloc : s.loc t <;> simp only [next, hloc, reduceCtorEq, Option.some.injEq] at hn
    subst hn
    rw [hloc] at hl
    exact ⟨own, h.goto hl⟩
  | malloc t b junk =>
    have hl := h.loc t
    cases hloc : s.loc t <;> simp only [next, hloc, reduceCtorEq] at hn
    cases hb : s.live b <;> simp only [hb, reduceCtorEq, Option.some.injEq] at hn
    subst hn
    rw [hloc] at hl
    exact ⟨_, h.malloc hb hl⟩
  | step t junk =>
    have hl := h.loc t
    simp only [next, stepThread] at hn
    cases hloc : s.loc t with
    | idle | alloc v => simp [hloc] at hn
    | initVal v n =>
      rw [hloc] at hl
      obtain ⟨hm, ha, ht⟩ := hl
      simp only [hloc, touch_eq hm.1.2, Option.some.injEq] at hn
      subst hn
      exact ⟨own, h.store hm ⟨hm, by simpa [St.store] using ha, ht⟩⟩
    | readTop n =>
      rw [hloc] at hl
      simp only [hloc, Option.some.injEq] at hn
      subst hn
      exact ⟨own, h.goto hl⟩
    | setNext n old =>
      rw [hloc] at hl
      obtain ⟨hm, ha, ht⟩ := hl
      simp only [hloc, touch_eq hm.1.2, Option.some.injEq] at hn
      subst hn
      exact ⟨own, h.store hm ⟨hm, by simpa [St.store] using ha, ht⟩⟩
    | loadNext n =>
      rw [hloc] at hl
      obtain ⟨hm, ha, ht⟩ := hl
      simp only [hloc, touch_eq hm.1.2, Option.some.injEq] at hn
      subst hn
      exact ⟨own, h.goto ⟨hm, ha, rfl, ht⟩⟩
    | cmpxchg n old =>
      rw [hloc] at hl
      obtain ⟨hm, ha, hx, ht⟩ := hl
      simp only [hloc] at hn
      split at hn <;> rename_i htop <;> rw [Option.some.injEq] at hn <;> subst hn
      · exact ⟨_, h.link hm ha (hx.trans htop.symm) ht⟩
      · exact ⟨own, h.goto ⟨ht, .inl ⟨hm, ha, fun e => htop (e.symm.trans hx)⟩⟩⟩
    | check n old =>
      rw [hloc] at hl
      obtain ⟨ht, ⟨hm, ha, hx⟩ | ⟨hlk, hv, hx⟩⟩ := hl
      · simp only [hloc, ne_eq, hx, not_false_eq_true, if_true, touch_eq hm.1.2,
          Option.some.injEq] at hn
        subst hn
        exact ⟨own, h.goto ⟨hm, ha, ht⟩⟩
      · simp only [hloc, hx, ne_eq, not_true_eq_false, if_false, touch_eq hv, Option.some.injEq] at hn
        subst hn
        exact ⟨own, h.goto ht⟩
    | xchg =>
      rw [hloc] at hl
      simp only [hloc, Option.some.injEq] at hn
      subst hn
      exact ⟨_, h.takeAll hl⟩
    | loop p =>
      rw [hloc] at hl
      obtain ⟨hp, hheld⟩ := hl
      cases p with
      | none =>
        simp only [hloc, Option.some.injEq] at hn
        subst hn
        exact ⟨own, h.goto (List.head?_eq_none_iff.mp hp.symm)⟩
      | some p =>
        obtain ⟨l, hl⟩ : ∃ l, s.todo t = p :: l := ⟨_, List.eq_cons_of_mem_head? hp.symm⟩
        have hp : p ∈ s.todo t := hl ▸ List.mem_cons_self
        simp only [hloc, touch_eq (hheld.owns p hp).2, Option.some.injEq] at hn
        subst hn
        obtain ⟨h1, h2⟩ := (hl ▸ hheld : Held own s _ _ (p :: l)).tail.1.ptr
        exact ⟨own, h.goto ⟨l, hl, h1, hheld, h2.trans (by rw [h1])⟩⟩
    | foo p nx =>
      rw [hloc] at hl
      obtain ⟨l, htl, -, hheld, -⟩ := id hl
      have hp : p ∈ s.todo t := htl ▸ List.mem_cons_self
      simp only [hloc, touch_eq (hheld.owns p hp).2, Option.some.injEq] at hn
      subst hn
      exact ⟨own, h.pass hl⟩
    | free p nx =>
      rw [hloc] at hl
      simp only [hloc, touch_eq hl.2.2.1.2, Option.some.injEq] at hn
      subst hn
      simp only [FreeOk, hloc] at hok
      exact ⟨own, h.release hl fun u n old hu e => hok u (by rw [hu, testing, e])⟩

theorem reach_inv (h : (sys τ V).Reach FreeOk s) : Inv s :=
  h.inv (fun _ => inv_init) fun _ _ _ hi hok hn => inv_step hi hok hn

end Lifo
end Perfbook
