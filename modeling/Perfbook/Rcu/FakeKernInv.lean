/-
# The callbacks of `fakekernrcu.c` are invoked in order

The callbacks that were not invoked are those that the daemon has taken off, then
those of `waitlist` and then those of `nextlist` (`InvAt.log`), and each part is a
list in memory. When pass `p` takes its turn, `nextlist` has what was enqueued
since the last one has, and `waitlist` what was enqueued in the pass before
(`Phase`).

Key definitions: `Chained`, `Phase`, `InvAt`.
Key theorems: `Chained.congr`, `InvAt.inOrder`, `InvAt.promote`, `Inv.next`, `callbacks_in_order`.
-/
import Perfbook.Rcu.FakeKern

namespace Perfbook
namespace FakeKern

open Conc

variable {n : ℕ} {F : Type}

/-- The cells of the callbacks. -/
def cells (l : List (Entry F)) : List Link := l.map fun e => .next e.head

/-- From `p` the links lead through the callbacks of `l`. -/
def Chained (s : St n F) (p : Link) (l : List (Entry F)) : Prop := Linked s.link p (cells l)

/-- The callbacks in each list, when `p` passes have started. -/
def Phase (s : St n F) (off wait nx : List (Entry F)) : Daemon → Prop
  | .start => off = [] ∧ s.synced = s.started ∧ s.ended = s.started ∧
      (∀ e ∈ wait, s.started ≤ e.stamp + 1) ∧ ∀ e ∈ nx, s.started ≤ e.stamp
  | .sync => off = [] ∧ s.synced + 1 = s.started ∧ s.ended + 1 = s.started ∧
      (∀ e ∈ wait, s.started ≤ e.stamp + 2 ∧ e.stamp < s.started) ∧ ∀ e ∈ nx, s.started ≤ e.stamp + 1
  | .lock => off = [] ∧ s.synced = s.started ∧ s.ended + 1 = s.started ∧
      (∀ e ∈ wait, s.started ≤ e.stamp + 2 ∧ e.stamp < s.started) ∧ ∀ e ∈ nx, s.started ≤ e.stamp + 1
  | .loop => Chained s .list off ∧ s.synced = s.started ∧ s.ended + 1 = s.started ∧
      (∀ e ∈ off, s.started ≤ e.stamp + 2 ∧ e.stamp < s.started) ∧ (∀ e ∈ wait, s.started ≤ e.stamp + 1) ∧
      ∀ e ∈ nx, s.started ≤ e.stamp
  | .func list next => Chained s .list off ∧ s.synced = s.started ∧ s.ended + 1 = s.started ∧
      (∀ e ∈ off, s.started ≤ e.stamp + 2 ∧ e.stamp < s.started) ∧ (∀ e ∈ wait, s.started ≤ e.stamp + 1) ∧
      (∀ e ∈ nx, s.started ≤ e.stamp) ∧ s.mem .list = some list ∧ s.mem (.next list) = next

structure InvAt (s : St n F) (gone off wait nx : List (Entry F)) : Prop where
  log : s.log = gone ++ (off ++ wait ++ nx)
  done : s.done = gone.map Entry.call
  synced : ∀ e ∈ gone, e.stamp < s.synced
  stamp : ∀ e ∈ s.log, e.stamp ≤ s.started
  nodup : ((off ++ wait ++ nx).map Entry.head).Nodup
  waitlist : Chained s .waitlist wait
  nextlist : Chained s .nextlist nx
  nexttail : s.nexttail = before .nextlist (cells nx)
  waittail : s.waittail = before .waitlist (cells wait)
  entry : ∀ e ∈ off ++ wait ++ nx, s.used e.head = true ∧ s.func e.head = e.func
  caller : ∀ t head func, s.caller t = some (head, func) → s.used head = true ∧ s.func head = func ∧
    s.mem (.next head) = none ∧ head ∉ (off ++ wait ++ nx).map Entry.head
  callers : ∀ t u head f g, s.caller t = some (head, f) → s.caller u = some (head, g) → t = u
  phase : Phase s off wait nx s.daemon

def Inv (s : St n F) : Prop := ∃ gone off wait nx, InvAt s gone off wait nx

variable {s s' : St n F} {gone off wait nx l : List (Entry F)} {e : Entry F} {p q : Link} {h k : ℕ}

theorem mem_cells (hp : p ∈ cells l) : ∃ e ∈ l, p = .next e.head := by
  obtain ⟨e, he, rfl⟩ := List.mem_map.mp hp
  exact ⟨e, he, rfl⟩

/-- A list depends on its own links. -/
theorem Chained.congr (hc : Chained s p l) (hp : s'.mem p = s.mem p)
    (hl : ∀ e ∈ l, s'.mem (.next e.head) = s.mem (.next e.head)) : Chained s' p l :=
  Linked.congr (fun q hq => by
    rcases List.mem_cons.mp hq with rfl | hq
    · rw [St.link, St.link, hp]
    · obtain ⟨e, he, rfl⟩ := mem_cells hq
      rw [St.link, St.link, hl e he]) hc

/-- The list is at another place. -/
theorem Chained.moved (hc : Chained s p l) (hq : s'.mem q = s.mem p)
    (hl : ∀ e ∈ l, s'.mem (.next e.head) = s.mem (.next e.head)) : Chained s' q l :=
  Linked.moved hc (by rw [St.link, St.link, hq]) fun r hr => by
    obtain ⟨e, he, rfl⟩ := mem_cells hr
    rw [St.link, St.link, hl e he]

theorem Chained.nil_of_none (hc : Chained s p l) (hn : s.mem p = none) : l = [] := by
  cases l with
  | nil => rfl
  | cons e l =>
    have h1 := hc.1
    rw [St.link, hn] at h1
    cases h1

theorem Chained.cons_of_some (hc : Chained s p l) (hn : s.mem p = some h) :
    ∃ e r, l = e :: r ∧ e.head = h ∧ Chained s (.next h) r := by
  cases l with
  | nil =>
    have h1 : s.link p = none := hc
    rw [St.link, hn] at h1
    cases h1
  | cons e r =>
    obtain ⟨h1, h2⟩ := hc
    rw [St.link, hn] at h1
    cases h1
    exact ⟨e, r, rfl, rfl, h2⟩

/-- A callback that is enqueued now. -/
theorem Phase.snoc {d : Daemon} (hp : Phase s off wait nx d) (he : e.stamp = s.started) :
    Phase s off wait (nx ++ [e]) d := by
  have hnx : ∀ {j}, (∀ d ∈ nx, s.started ≤ d.stamp + j) → ∀ d ∈ nx ++ [e], s.started ≤ d.stamp + j :=
    fun {j} h d hd => by
      rcases List.mem_append.mp hd with hd | hd
      · exact h d hd
      · rw [List.mem_singleton.mp hd, he]
        exact Nat.le_add_right _ _
  cases d with
  | start => exact ⟨hp.1, hp.2.1, hp.2.2.1, hp.2.2.2.1, hnx (j := 0) hp.2.2.2.2⟩
  | sync | lock => exact ⟨hp.1, hp.2.1, hp.2.2.1, hp.2.2.2.1, hnx hp.2.2.2.2⟩
  | loop => exact ⟨hp.1, hp.2.1, hp.2.2.1, hp.2.2.2.1, hp.2.2.2.2.1, hnx (j := 0) hp.2.2.2.2.2⟩
  | func list next =>
    exact ⟨hp.1, hp.2.1, hp.2.2.1, hp.2.2.2.1, hp.2.2.2.2.1, hnx (j := 0) hp.2.2.2.2.2.1, hp.2.2.2.2.2.2⟩

namespace InvAt

variable (hi : InvAt s gone off wait nx)
include hi

theorem drop_log : s.log.drop s.done.length = off ++ wait ++ nx := by
  rw [hi.log, hi.done, List.length_map, List.drop_left]

/-- A callback that is not invoked. -/
theorem pending (hk : s.log[k]? = some e) (hd : ¬ k < s.done.length) : e ∈ off ++ wait ++ nx := by
  rw [← hi.drop_log]
  refine List.mem_of_getElem? (i := k - s.done.length) ?_
  rw [List.getElem?_drop, ← hk]
  congr 1
  omega

/-- **The invariant is what is promised.** -/
theorem inOrder : InOrder s where
  order := by
    rw [hi.done, hi.log, List.map_append]
    exact List.prefix_append _ _
  after k e hk hd := by
    rw [hi.done, List.length_map] at hd
    rw [hi.log, List.getElem?_append_left hd] at hk
    exact hi.synced e (List.mem_of_getElem? hk)
  before k e hk he := by
    by_contra hd
    have hmem := hi.pending hk hd
    have hphase := hi.phase
    rw [List.mem_append, List.mem_append] at hmem
    revert hphase
    cases s.daemon with
    | start =>
      rintro ⟨rfl, -, hended, hwait, hnx⟩
      rcases hmem with (hm | hm) | hm
      · cases hm
      · have := hwait e hm
        omega
      · have := hnx e hm
        omega
    | sync | lock =>
      rintro ⟨rfl, -, hended, hwait, hnx⟩
      rcases hmem with (hm | hm) | hm
      · cases hm
      · have := hwait e hm
        omega
      · have := hnx e hm
        omega
    | loop =>
      rintro ⟨-, -, hended, hoff, hwait, hnx⟩
      rcases hmem with (hm | hm) | hm
      · have := hoff e hm
        omega
      · have := hwait e hm
        omega
      · have := hnx e hm
        omega
    | func list next =>
      rintro ⟨-, -, hended, hoff, hwait, hnx, -⟩
      rcases hmem with (hm | hm) | hm
      · have := hoff e hm
        omega
      · have := hwait e hm
        omega
      · have := hnx e hm
        omega
  tail := ⟨off, wait, nx, hi.drop_log, hi.nodup, hi.waitlist, hi.nextlist, hi.nexttail⟩

/-- What a phase says of the callbacks does not depend on their memory. -/
theorem phase_congr (hmem : s'.mem .list = s.mem .list)
    (hoff : ∀ e ∈ off, s'.mem (.next e.head) = s.mem (.next e.head)) (hd : s'.daemon = s.daemon)
    (hstarted : s'.started = s.started) (hsynced : s'.synced = s.synced) (hended : s'.ended = s.ended) :
    Phase s' off wait nx s'.daemon := by
  have hphase := hi.phase
  rw [hd]
  revert hphase
  cases s.daemon with
  | start | sync | lock =>
    rw [Phase, Phase, hstarted, hsynced, hended]
    exact id
  | loop =>
    rw [Phase, Phase, hstarted, hsynced, hended]
    exact fun ⟨hc, hrest⟩ => ⟨hc.congr hmem hoff, hrest⟩
  | func list next =>
    rw [Phase, Phase, hstarted, hsynced, hended, hmem]
    rintro ⟨hc, hsynced, hended, hstamp, hwait, hnx, hlist, hnext⟩
    obtain ⟨e, r, rfl, rfl, -⟩ := hc.cons_of_some hlist
    exact ⟨hc.congr hmem hoff, hsynced, hended, hstamp, hwait, hnx, hlist, (hoff e List.mem_cons_self).trans hnext⟩

/-- A head that is the caller's is in no list. -/
theorem not_mem (hu : s.used h = false) : h ∉ (off ++ wait ++ nx).map Entry.head := fun hm => by
  obtain ⟨e, he, rfl⟩ := List.mem_map.mp hm
  have := (hi.entry e he).1
  rw [hu] at this
  cases this

theorem callRcu {t : Fin n} {f : F} (hn : next s (.callRcu t h f) = some s') : InvAt s' gone off wait nx := by
  rw [next] at hn
  split at hn
  · next hg =>
    cases hn
    obtain ⟨hidle, hfree⟩ := hg
    have hout := hi.not_mem hfree
    have hne : ∀ e ∈ off ++ wait ++ nx, e.head ≠ h := fun e he heq => hout (List.mem_map.mpr ⟨e, he, heq⟩)
    have hmem : ∀ e ∈ off ++ wait ++ nx,
        Function.update s.mem (.next h) none (.next e.head) = s.mem (.next e.head) := fun e he =>
      Function.update_of_ne (fun heq => hne e he (Link.next.inj heq)) ..
    have hmemoff := fun e he => hmem e (List.mem_append_left _ (List.mem_append_left _ he))
    refine ⟨hi.log, hi.done, hi.synced, hi.stamp, hi.nodup, hi.waitlist.congr rfl fun e he => ?_,
      hi.nextlist.congr rfl fun e he => ?_, hi.nexttail, hi.waittail, fun e he => ?_, fun u k g hu => ?_,
      fun u v k f g hu hv => ?_, hi.phase_congr rfl hmemoff rfl rfl rfl rfl⟩
    · exact hmem e (List.mem_append_left _ (List.mem_append_right _ he))
    · exact hmem e (List.mem_append_right _ he)
    · change Function.update s.used h true e.head = true ∧ Function.update s.func h f e.head = e.func
      rw [Function.update_of_ne (hne e he), Function.update_of_ne (hne e he)]
      exact hi.entry e he
    · change Function.update s.caller t (some (h, f)) u = some (k, g) at hu
      change Function.update s.used h true k = true ∧ Function.update s.func h f k = g ∧
        Function.update s.mem (.next h) none (.next k) = none ∧ _
      by_cases hut : u = t
      · rw [hut, Function.update_self] at hu
        cases hu
        rw [Function.update_self, Function.update_self, Function.update_self]
        exact ⟨rfl, rfl, rfl, hout⟩
      · rw [Function.update_of_ne hut] at hu
        obtain ⟨huse, hf, hnone, hnot⟩ := hi.caller u k g hu
        have hkh : k ≠ h := fun hkh => by
          rw [hkh, hfree] at huse
          cases huse
        have hlink : Link.next k ≠ .next h := fun heq => hkh (Link.next.inj heq)
        rw [Function.update_of_ne hkh, Function.update_of_ne hkh, Function.update_of_ne hlink]
        exact ⟨huse, hf, hnone, hnot⟩
    · change Function.update s.caller t (some (h, _)) u = some (k, f) at hu
      change Function.update s.caller t (some (h, _)) v = some (k, g) at hv
      have hother : ∀ {w x}, w ≠ t → s.caller w = some (k, x) → k ≠ h := fun _ hw hkh => by
        have huse := (hi.caller _ _ _ hw).1
        rw [hkh, hfree] at huse
        cases huse
      by_cases hut : u = t <;> by_cases hvt : v = t
      · rw [hut, hvt]
      · rw [hut, Function.update_self] at hu
        rw [Function.update_of_ne hvt] at hv
        cases hu
        exact absurd rfl (hother hvt hv)
      · rw [hvt, Function.update_self] at hv
        rw [Function.update_of_ne hut] at hu
        cases hv
        exact absurd rfl (hother hut hu)
      · rw [Function.update_of_ne hut] at hu
        rw [Function.update_of_ne hvt] at hv
        exact hi.callers u v k f g hu hv
  · cases hn

theorem reuse {f : F} {x : Option ℕ} (hn : next s (.reuse h f x) = some s') : InvAt s' gone off wait nx := by
  rw [next] at hn
  split at hn
  · next hfree =>
    cases hn
    have hout := hi.not_mem hfree
    have hne : ∀ e ∈ off ++ wait ++ nx, e.head ≠ h := fun e he heq => hout (List.mem_map.mpr ⟨e, he, heq⟩)
    have hmem : ∀ e ∈ off ++ wait ++ nx, Function.update s.mem (.next h) x (.next e.head) = s.mem (.next e.head) :=
      fun e he => Function.update_of_ne (fun heq => hne e he (Link.next.inj heq)) ..
    have hmemoff := fun e he => hmem e (List.mem_append_left _ (List.mem_append_left _ he))
    refine ⟨hi.log, hi.done, hi.synced, hi.stamp, hi.nodup, hi.waitlist.congr rfl fun e he => ?_,
      hi.nextlist.congr rfl fun e he => ?_, hi.nexttail, hi.waittail, fun e he => ?_, fun u k g hu => ?_,
      hi.callers, hi.phase_congr rfl hmemoff rfl rfl rfl rfl⟩
    · exact hmem e (List.mem_append_left _ (List.mem_append_right _ he))
    · exact hmem e (List.mem_append_right _ he)
    · change s.used e.head = true ∧ Function.update s.func h f e.head = e.func
      rw [Function.update_of_ne (hne e he)]
      exact hi.entry e he
    · obtain ⟨huse, hf, hnone, hnot⟩ := hi.caller u k g hu
      have hkh : k ≠ h := fun hkh => by
        rw [hkh, hfree] at huse
        cases huse
      have hlink : Link.next k ≠ .next h := fun heq => hkh (Link.next.inj heq)
      exact ⟨huse, (Function.update_of_ne hkh ..).trans hf, (Function.update_of_ne hlink ..).trans hnone, hnot⟩
  · cases hn

/-- **A callback is enqueued**, behind the last one. -/
theorem enqueue {t : Fin n} (hn : next s (.enqueue t) = some s') : Inv s' := by
  rw [next] at hn
  split at hn
  · next head f ht =>
    cases hn
    obtain ⟨huse, hf, hnone, hnot⟩ := hi.caller t head f ht
    set e : Entry F := ⟨head, f, s.started⟩ with he
    have hassoc : off ++ wait ++ (nx ++ [e]) = off ++ wait ++ nx ++ [e] := (List.append_assoc _ _ _).symm
    have hne : ∀ d ∈ off ++ wait ++ nx, d.head ≠ head := fun d hd heq => hnot (List.mem_map.mpr ⟨d, hd, heq⟩)
    -- the last link is one of `nextlist`
    have htail : ∀ q, q ∉ Link.nextlist :: cells nx → q ≠ s.nexttail := fun q hq => hi.nexttail ▸ ne_before hq
    have hother : ∀ l, l ≠ s.nexttail → Function.update s.mem s.nexttail (some head) l = s.mem l :=
      fun l hl => Function.update_of_ne hl ..
    have hnodup := hi.nodup
    rw [List.map_append, List.nodup_append] at hnodup
    have hout : ∀ k, (∀ c ∈ nx, c.head ≠ k) → Link.next k ≠ s.nexttail := fun k hk => htail _ fun hm => by
      obtain ⟨c, hc, heq⟩ := mem_cells ((List.mem_cons.mp hm).resolve_left nofun)
      exact hk c hc (Link.next.inj heq).symm
    have hofftail : ∀ d ∈ off ++ wait, Link.next d.head ≠ s.nexttail := fun d hd => hout _ fun c hc heq =>
      hnodup.2.2 _ (List.mem_map_of_mem hd) _ (List.mem_map_of_mem hc) heq.symm
    have hheadtail : Link.next head ≠ s.nexttail := hout _ fun c hc => hne c (List.mem_append_right _ hc)
    have hroot : ∀ p : Link, p ≠ .nextlist → (∀ h, p ≠ .next h) → p ≠ s.nexttail := fun p hp hp' => htail _ fun hm => by
      obtain ⟨c, -, heq⟩ := mem_cells ((List.mem_cons.mp hm).resolve_left hp)
      exact hp' _ heq
    refine ⟨gone, off, wait, nx ++ [e], ?_, hi.done, hi.synced, fun d hd => ?_, ?_, ?_, ?_, ?_, hi.waittail,
      fun d hd => ?_, fun u k g hu => ?_, fun u v k f g hu hv => ?_, ?_⟩
    · change s.log ++ [e] = _
      rw [hi.log, hassoc, List.append_assoc]
    · rcases List.mem_append.mp hd with hd | hd
      · exact hi.stamp d hd
      · obtain rfl := List.mem_singleton.mp hd
        exact Nat.le_refl _
    · rw [hassoc, List.map_append, List.nodup_append]
      refine ⟨hi.nodup, List.nodup_singleton _, fun a ha b hb hab => ?_⟩
      rw [hab, List.mem_singleton.mp hb] at ha
      exact hnot ha
    · exact hi.waitlist.congr
        (hother _ (hroot _ nofun nofun)) fun d hd => hother _ (hofftail d (List.mem_append_right _ hd))
    · have hlast : s.link (before .nextlist (cells nx)) = none := by
        have hchain := hi.nextlist
        rw [Chained, ← List.append_nil (cells nx)] at hchain
        exact hchain.mid
      have hnd : (Link.nextlist :: cells nx).Nodup := by
        refine List.nodup_cons.mpr ⟨fun hm => ?_, ?_⟩
        · obtain ⟨_, _, heq⟩ := mem_cells hm
          cases heq
        · have hmap : cells nx = (nx.map Entry.head).map .next := List.map_map.symm
          rw [hmap]
          exact hnodup.2.1.map fun a b => Link.next.inj
      have hchain := hi.nextlist
      rw [Chained, ← List.append_nil (cells nx)] at hchain
      rw [Chained, cells, List.map_append]
      refine hchain.insert ?_ ?_ (fun q _ hq => ?_) (by rwa [List.append_nil])
      · rw [hlast, St.link]
        exact congrArg _ ((hother _ hheadtail).trans hnone)
      · rw [← hi.nexttail, St.link]
        exact congrArg _ (Function.update_self ..)
      · rw [← hi.nexttail] at hq
        rw [St.link, St.link]
        exact congrArg _ (hother q hq)
    · rw [cells, List.map_append, before_append]
      rfl
    · rw [hassoc] at hd
      rcases List.mem_append.mp hd with hd | hd
      · exact hi.entry d hd
      · rw [List.mem_singleton.mp hd]
        exact ⟨huse, hf⟩
    · change Function.update s.caller t none u = some (k, g) at hu
      have hut : u ≠ t := fun hut => by
        rw [hut, Function.update_self] at hu
        cases hu
      rw [Function.update_of_ne hut] at hu
      obtain ⟨hku, hkf, hkn, hknot⟩ := hi.caller u k g hu
      have hkh : k ≠ head := fun hkh => hut (hi.callers u t head g f (hkh ▸ hu) ht)
      have hktail : Link.next k ≠ s.nexttail := hout _ fun c hc heq =>
        hknot (List.mem_map.mpr ⟨c, List.mem_append_right _ hc, heq⟩)
      refine ⟨hku, hkf, (hother _ hktail).trans hkn, fun hm => ?_⟩
      rw [hassoc, List.map_append] at hm
      rcases List.mem_append.mp hm with hm | hm
      · exact hknot hm
      · exact hkh (List.mem_singleton.mp hm)
    · have hcaller : ∀ {w x}, Function.update s.caller t none w = some x → s.caller w = some x := fun {w x} hw => by
        by_cases hwt : w = t
        · rw [hwt, Function.update_self] at hw
          cases hw
        · rwa [Function.update_of_ne hwt] at hw
      exact hi.callers u v k f g (hcaller hu) (hcaller hv)
    · refine Phase.snoc (hi.phase_congr (hother _ (hroot _ nofun nofun)) (fun d hd => ?_) rfl rfl rfl rfl) rfl
      exact hother _ (hofftail d (List.mem_append_left _ hd))
  · cases hn

/-! ### The steps of the daemon -/

theorem start (hd : s.daemon = .start) : Inv (stepDaemon s) := by
  have hphase := hi.phase
  rw [hd] at hphase
  obtain ⟨hoff, hsynced, hended, hwait, hnx⟩ := hphase
  rw [stepDaemon, hd]
  refine ⟨gone, off, wait, nx, hi.log, hi.done, hi.synced, fun e he => Nat.le_succ_of_le (hi.stamp e he), hi.nodup,
    hi.waitlist, hi.nextlist, hi.nexttail, hi.waittail, hi.entry, hi.caller, hi.callers,
    hoff, congrArg _ hsynced, congrArg _ hended, fun e he => ?_, fun e he => ?_⟩
  · have hle := hi.stamp e (by
      rw [hi.log]
      exact List.mem_append_right _ (List.mem_append_left _ (List.mem_append_right _ he)))
    have hge := hwait e he
    dsimp only
    omega
  · have hge := hnx e he
    dsimp only
    omega

theorem sync (hd : s.daemon = .sync) : Inv (stepDaemon s) := by
  have hphase := hi.phase
  rw [hd] at hphase
  rw [stepDaemon, hd]
  exact ⟨gone, off, wait, nx, hi.log, hi.done, fun e he => Nat.lt_succ_of_lt (hi.synced e he), hi.stamp,
    hi.nodup, hi.waitlist, hi.nextlist, hi.nexttail, hi.waittail, hi.entry, hi.caller, hi.callers, hphase⟩

/-- **The section of the daemon**: `waitlist` is taken off, and `nextlist` takes its place. -/
theorem promote (hd : s.daemon = .lock) : Inv (stepDaemon s) := by
  have hphase := hi.phase
  rw [hd] at hphase
  obtain ⟨rfl, hsynced, hended, hwait, hnx⟩ := hphase
  have hlog := hi.log
  have hnodup := hi.nodup
  have hentry := hi.entry
  have hcaller := hi.caller
  rw [List.nil_append] at hlog hnodup hentry
  simp only [List.nil_append] at hcaller
  -- both branches of the test do the same to the lists
  have hnone : s.mem .nextlist = none → nx = [] := hi.nextlist.nil_of_none
  have hstep : stepDaemon s = { s with
      mem := Function.update (Function.update (Function.update s.mem .list (s.mem .waitlist)) .waitlist
        (s.mem .nextlist)) .nextlist none
      waittail := before .waitlist (cells nx)
      nexttail := .nextlist
      daemon := .loop } := by
    rw [stepDaemon, hd]
    dsimp only
    split
    · next hn =>
      rw [hn, hnone hn]
      rfl
    · next hn =>
      have htail : s.nexttail = before .waitlist (cells nx) := by
        rw [hi.nexttail]
        cases nx with
        | nil => exact absurd (Option.map_eq_none_iff.mp hi.nextlist) hn
        | cons e r => rw [cells, List.map_cons, before_cons, before_cons]
      rw [htail]
  rw [hstep]
  refine ⟨gone, wait, nx, [], ?_, hi.done, hi.synced, hi.stamp, ?_, hi.nextlist.moved rfl fun _ _ => rfl, ?_, rfl, rfl,
    ?_, ?_, hi.callers, hi.waitlist.moved rfl fun _ _ => rfl, hsynced, hended, hwait, hnx, nofun⟩
  · rwa [List.append_nil]
  · rwa [List.append_nil]
  · rfl
  · rwa [List.append_nil]
  · rwa [List.append_nil]

theorem loop (hd : s.daemon = .loop) : Inv (stepDaemon s) := by
  have hphase := hi.phase
  rw [hd] at hphase
  obtain ⟨hchain, hsynced, hended, hoff, hwait, hnx⟩ := hphase
  rw [stepDaemon, hd]
  dsimp only
  split
  · next hnone =>
    have hnil := hchain.nil_of_none hnone
    exact ⟨gone, off, wait, nx, hi.log, hi.done, hi.synced, hi.stamp, hi.nodup, hi.waitlist, hi.nextlist, hi.nexttail,
      hi.waittail, hi.entry, hi.caller, hi.callers, hnil, hsynced, hended, hwait, hnx⟩
  · next list hlist =>
    exact ⟨gone, off, wait, nx, hi.log, hi.done, hi.synced, hi.stamp, hi.nodup, hi.waitlist, hi.nextlist, hi.nexttail,
      hi.waittail, hi.entry, hi.caller, hi.callers, hchain, hsynced, hended, hoff, hwait, hnx, hlist, rfl⟩

/-- **A callback is invoked**, and its head is the caller's again. -/
theorem func {list : ℕ} {next : Option ℕ} (hd : s.daemon = .func list next) : Inv (stepDaemon s) := by
  have hphase := hi.phase
  rw [hd] at hphase
  obtain ⟨hchain, hsynced, hended, hoff, hwait, hnx, hlist, hnext⟩ := hphase
  obtain ⟨e, r, rfl, rfl, hrest⟩ := hchain.cons_of_some hlist
  have hnodup := hi.nodup
  simp only [List.cons_append, List.map_cons, List.nodup_cons] at hnodup
  have hne : ∀ d ∈ r ++ wait ++ nx, d.head ≠ e.head := fun d hd heq => hnodup.1 (List.mem_map.mpr ⟨d, hd, heq⟩)
  have hfunc : s.func e.head = e.func := (hi.entry e List.mem_cons_self).2
  rw [stepDaemon, hd]
  refine ⟨gone ++ [e], r, wait, nx, ?_, ?_, fun d hd => ?_, hi.stamp, hnodup.2, hi.waitlist.congr rfl fun _ _ => rfl,
    hi.nextlist.congr rfl fun _ _ => rfl, hi.nexttail, hi.waittail,
    fun d hd => ?_, fun t h f ht => ?_, hi.callers, ?_, hsynced, hended,
    fun d hd => hoff d (List.mem_cons_of_mem _ hd), hwait, hnx⟩
  · rw [List.append_assoc]
    exact hi.log
  · rw [List.map_append]
    change s.done ++ [(e.head, s.func e.head)] = _
    rw [hi.done, hfunc]
    rfl
  · rcases List.mem_append.mp hd with hd | hd
    · exact hi.synced d hd
    · rw [List.mem_singleton.mp hd]
      exact Nat.lt_of_lt_of_eq (hoff e List.mem_cons_self).2 hsynced.symm
  · change Function.update s.used e.head false d.head = true ∧ _
    rw [Function.update_of_ne (hne d hd)]
    exact hi.entry d (List.mem_cons_of_mem _ hd)
  · obtain ⟨hu, hf, hn, hnot⟩ := hi.caller t h f ht
    simp only [List.cons_append, List.map_cons, List.mem_cons, not_or] at hnot
    change Function.update s.used e.head false h = true ∧ _ ∧ Function.update s.mem .list next (.next h) = none ∧ _
    rw [Function.update_of_ne hnot.1]
    exact ⟨hu, hf, hn, hnot.2⟩
  · exact hrest.moved hnext.symm fun _ _ => rfl

theorem stepDaemon : Inv (stepDaemon s) := by
  cases hd : s.daemon with
  | start => exact hi.start hd
  | sync => exact hi.sync hd
  | lock => exact hi.promote hd
  | loop => exact hi.loop hd
  | func list next => exact hi.func hd

end InvAt

theorem Inv.next {a : Act n F} (h : Inv s) (hn : next s a = some s') : Inv s' := by
  obtain ⟨gone, off, wait, nx, hi⟩ := h
  cases a with
  | callRcu t head func => exact ⟨gone, off, wait, nx, hi.callRcu hn⟩
  | enqueue t => exact hi.enqueue hn
  | daemon =>
    cases hn
    exact hi.stepDaemon
  | reuse head func next => exact ⟨gone, off, wait, nx, hi.reuse hn⟩

theorem inv_init (h : Init s) : Inv s := by
  refine ⟨[], [], [], [], h.log, h.done, nofun, fun e he => ?_, List.nodup_nil, ?_, ?_, h.nexttail, h.waittail, nofun,
    fun t head f ht => ?_, fun t u head f g ht => ?_, ?_⟩
  · rw [h.log] at he
    cases he
  · exact congrArg _ h.waitlist
  · exact congrArg _ h.nextlist
  · rw [h.caller t] at ht
    cases ht
  · rw [h.caller t] at ht
    cases ht
  · rw [h.daemon, Phase, h.synced, h.ended, h.started]
    exact ⟨rfl, rfl, rfl, nofun, nofun⟩

/-- **The callbacks are invoked in order**, each after a grace period and within two passes. -/
theorem callbacks_in_order (h : (sys n F).Reach Sys.always s) : InOrder s := by
  have hinv : Inv s := h.inv (fun _ => inv_init) fun _ _ _ hi _ hn => hi.next hn
  obtain ⟨_, _, _, _, hi⟩ := hinv
  exact hi.inOrder

/-- One thread, and a callback is a number. -/
def first : St 1 ℕ where
  mem _ := none
  func _ := 0
  nexttail := .nextlist
  waittail := .waitlist
  caller _ := none
  daemon := .start
  used _ := false
  log := []
  done := []
  started := 0
  synced := 0
  ended := 0

/-- Two callbacks, the second one after the first pass has promoted the first one, and the head of the first is used
again. -/
def twoCallbacks : List (Act 1 ℕ) :=
  [.callRcu 0 5 1, .enqueue 0, .daemon, .daemon, .daemon, .callRcu 0 6 2, .enqueue 0] ++ List.replicate 6 .daemon ++
    [.callRcu 0 5 3, .enqueue 0] ++ List.replicate 8 .daemon

theorem callbacks_in_order_run : ∃ s, (sys 1 ℕ).Reach Sys.always s ∧ s.done = [(5, 1), (6, 2)] ∧ InOrder s := by
  have hrun : ((sys 1 ℕ).run Sys.always twoCallbacks first).map (fun s => s.done) = some [(5, 1), (6, 2)] := by decide
  obtain ⟨s, hs, hd⟩ := Option.map_eq_some_iff.mp hrun
  have hinit : Init first :=
    ⟨rfl, rfl, rfl, rfl, fun _ => rfl, rfl, fun _ => rfl, rfl, rfl, rfl, rfl, rfl⟩
  have hreach := Sys.run_reach (.init hinit) hs
  exact ⟨s, hreach, hd, callbacks_in_order hreach⟩

end FakeKern
end Perfbook
