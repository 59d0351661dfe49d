/-
# What a lookup finds

The links that a lookup can follow are those of the nodes that were linked, on a
level, at some time since it has started (`Seen`): each of them leads to another one
of them, even when the node was unlinked meanwhile. From such a node, before one
that stays linked, level 0 leads on to that one (`Seen.near`). So the search ends
before the node with the key, and when the link is the same at the second look,
the lookup returns the node.

Key definitions: `Seen`, `ReaderInv`, `LInv`.
Key theorems: `Seen.change`, `LInv.step`, `LInv.look`, `lookups_find`, `lookup_misses`.
-/
import Mathlib.Algebra.Order.Group.Nat
import Perfbook.Skip.ShapeStep

namespace Perfbook
namespace Skip
namespace Relaxed

open Par Conc

variable {n : ℕ} {ν K : Type} [DecidableEq ν] [LinearOrder K] {E : Prop} {head : ν} {s s' : St n ν K}
  {on on' : ν → ℕ → Bool} {kept kept' met met' : ν → Bool} {seen : ν → ℕ → Prop} {t : Fin n}
  {p q x y slp new : ν} {key : K} {level i j : ℕ}

/-- The nodes that a lookup can come to, on a level or below it. -/
structure Seen (head : ν) (s : St n ν K) (on : ν → ℕ → Bool) (kept met : ν → Bool)
    (seen : ν → ℕ → Prop) : Prop where
  ofOn : ∀ p i, on p i = true → seen p i
  valid : ∀ p i, seen p i → s.valid p i = true
  down : ∀ p i j, seen p i → j ≤ i → seen p j
  next : ∀ p i q, seen p i → s.next p i = some q → seen q i
  near : ∀ x p, kept x = true → seen p 0 → Below head s p x → ∃ q, s.next p 0 = some q ∧ AtMost head s q x
  isMet : ∀ p, seen p 0 → met p = true
  metNode : ∀ p, met p = true → Node head s p
  stays : ∀ x, kept x = true → on x 0 = true ∧ s.deleted x = false

omit [DecidableEq ν] in
/-- At the start of a lookup. -/
theorem Seen.start (hi : Inv E head s) (h : Chains head s on)
    (hkept : ∀ x, kept x = true → on x 0 = true ∧ s.deleted x = false) :
    Seen head s on kept (fun p => on p 0) fun p i => on p i = true where
  ofOn _ _ := id
  valid := h.valid
  down := h.down
  next := h.next
  near x p hx hp := h.between p x 0 hp (hkept x hx).1
  isMet _ := id
  metNode _ := h.node hi
  stays := hkept

section

variable (hi : Inv E head s) (h : Seen head s on kept met seen)
include hi h

omit [DecidableEq ν] in
theorem Seen.node (hp : seen p i) : Node head s p := hi.validNode p i (h.valid p i hp)

/-- **What a lookup can come to**, after a step of a thread. -/
theorem Seen.change (hch : Change head s on s' on')
    (hkept : ∀ x, kept' x = true → kept x = true ∧ on' x 0 = true ∧ s'.deleted x = false)
    (hmet : ∀ p, met' p = true ↔ met p = true ∨ on' p 0 = true)
    (hnode' : ∀ p, on' p 0 = true → Node head s' p) :
    ∃ seen', Seen head s' on' kept' met' seen' ∧ ∀ p i, seen p i → seen' p i := by
  have hkn : ∀ {x}, kept' x = true → Node head s x := fun hx =>
    h.node hi (h.ofOn _ 0 (h.stays _ (hkept _ hx).1).1)
  cases hch with
  | quiet hq =>
    have hbelow : ∀ {p q}, Node head s p → Node head s q → (Below head s' p q ↔ Below head s p q) := fun hp hq' => by
      rw [Below, Below, hq.key _ hp, hq.key _ hq']
    refine ⟨seen, ⟨h.ofOn, fun p i hp => hq.valid p i (h.valid p i hp), h.down, fun p i q hp hn => ?_,
      fun x p hx hp hlt => ?_, fun p hp => (hmet p).mpr (.inl (h.isMet p hp)), fun p hp => ?_,
      fun x hx => (hkept x hx).2⟩, fun _ _ => id⟩
    · rw [hq.next p i (h.valid p i hp)] at hn
      exact h.next p i q hp hn
    · rw [hbelow (h.node hi hp) (hkn hx)] at hlt
      obtain ⟨q, hn, hqx⟩ := h.near x p (hkept x hx).1 hp hlt
      refine ⟨q, (hq.next p 0 (h.valid p 0 hp)).trans hn, ?_⟩
      rwa [AtMost, hbelow (h.node hi (h.next p 0 q hp hn)) (hkn hx)]
    · rcases (hmet p).mp hp with hp | hp
      · exact hq.node p (h.metNode p hp)
      · exact hnode' p hp
  | link slp new level hkey hstage hvalid hnext hslp hlt hcopy hvn hlow =>
    have hbelow : ∀ {p q}, Below head s' p q ↔ Below head s p q := by
      simp only [Below, hkey, implies_true]
    have hatMost : ∀ {p q}, AtMost head s' p q ↔ AtMost head s p q := by
      simp only [AtMost, Below, hkey, implies_true]
    have hne : new ≠ slp := fun he => Below.irrefl (he ▸ hlt)
    have hsl : seen slp level := h.ofOn slp level hslp
    -- the node behind is behind the new one
    have hbehind : ∀ {q}, s.next slp level = some q → Below head s new q := fun hq =>
      (hi.link new level _ hvn (hcopy.trans hq)).2.2
    refine ⟨fun p i => seen p i ∨ p = new ∧ i = level, ⟨fun p i hp => ?_, fun p i hp => ?_, fun p i j hp hij => ?_,
      fun p i q hp hq => ?_, fun x p hx hp hpx => ?_, fun p hp => ?_, fun p hp => ?_, fun x hx => (hkept x hx).2⟩,
      fun _ _ => .inl⟩
    · exact (setOn_true.mp hp).symm.imp_left (h.ofOn p i)
    · rw [hvalid]
      rcases hp with hp | ⟨rfl, rfl⟩
      · exact h.valid p i hp
      · exact hvn
    · rcases hp with hp | ⟨rfl, rfl⟩
      · exact .inl (h.down p i j hp hij)
      · rcases hij.eq_or_lt with rfl | hlt
        · exact .inr ⟨rfl, rfl⟩
        · exact .inl (h.ofOn p j (hlow j hlt))
    · rw [hnext] at hq
      split at hq
      · next he => exact .inr ⟨(Option.some.inj hq).symm, he.2⟩
      · rcases hp with hp | ⟨rfl, rfl⟩
        · exact .inl (h.next p i q hp hq)
        · exact .inl (h.next slp i q hsl (hcopy.symm.trans hq))
    · rw [hbelow] at hpx
      simp only [hnext, hatMost]
      rcases hp with hp | ⟨rfl, h0⟩
      · split
        · next he =>
          obtain ⟨rfl, rfl⟩ := he
          obtain ⟨q, hq, hqx⟩ := h.near x p (hkept x hx).1 hp hpx
          exact ⟨new, rfl, .inr (below_atMost (hbehind hq) hqx)⟩
        · exact h.near x p (hkept x hx).1 hp hpx
      · subst h0
        rw [if_neg fun hc => hne hc.1, hcopy]
        exact h.near x slp (hkept x hx).1 hsl (hlt.trans hpx)
    · refine (hmet p).mpr ?_
      rcases hp with hp | ⟨rfl, h0⟩
      · exact .inl (h.isMet p hp)
      · exact .inr (setOn_true.mpr (.inl ⟨rfl, h0.symm ▸ rfl⟩))
    · rcases (hmet p).mp hp with hp | hp
      · exact (h.metNode p hp).imp_right fun hin => hstage ▸ hin
      · exact hnode' p hp
  | unlink slp cur level hkey hstage hvalid hnext hslp hcur hlink =>
    have hbelow : ∀ {p q}, Below head s' p q ↔ Below head s p q := by
      simp only [Below, hkey, implies_true]
    have hatMost : ∀ {p q}, AtMost head s' p q ↔ AtMost head s p q := by
      simp only [AtMost, Below, hkey, implies_true]
    refine ⟨seen, ⟨fun p i hp => h.ofOn p i (setOn_false.mp hp).2, fun p i hp => by rw [hvalid]; exact h.valid p i hp,
      h.down, fun p i q hp hq => ?_, fun x p hx hp hpx => ?_, fun p hp => (hmet p).mpr (.inl (h.isMet p hp)),
      fun p hp => ?_, fun x hx => (hkept x hx).2⟩, fun _ _ => id⟩
    · rw [hnext] at hq
      split at hq
      · next he =>
        obtain ⟨rfl, rfl⟩ := he
        exact h.next cur i q (h.ofOn cur i hcur) hq
      · exact h.next p i q hp hq
    · rw [hbelow] at hpx
      simp only [hnext, hatMost]
      split
      · next he =>
        obtain ⟨rfl, rfl⟩ := he
        obtain ⟨q, hq, hqx⟩ := h.near x p (hkept x hx).1 hp hpx
        rw [hlink] at hq
        cases hq
        rcases hqx with rfl | hlt
        · exact absurd ⟨rfl, rfl⟩ (setOn_false.mp (hkept cur hx).2.1).1
        · exact h.near x cur (hkept x hx).1 (h.ofOn cur 0 hcur) hlt
      · exact h.near x p (hkept x hx).1 hp hpx
    · rcases (hmet p).mp hp with hp | hp
      · exact (h.metNode p hp).imp_right fun hin => hstage ▸ hin
      · exact hnode' p hp

end

/-! ### The lookup -/

/-- What holds where the lookup is. -/
def ReaderInv (head : ν) (s : St n ν K) (kept met : ν → Bool) (seen : ν → ℕ → Prop) : Reader ν K → Prop
  | .idle => True
  | .walk key level slp => seen slp level ∧ (slp = head ∨ s.key slp < key)
  | .again key slp next => seen slp 0 ∧ ∀ x, x ≠ head → s.key x = key → kept x = true → next = some x
  | .deleted key slp => slp ≠ head ∧ seen slp 0 ∧ ∀ x, x ≠ head → s.key x = key → kept x = true → slp = x
  | .returned key r => (∀ x, x ≠ head → s.key x = key → kept x = true → r = some x) ∧
      ((∀ x, x ≠ head → met x = true → s.key x ≠ key) → r = none)

structure LInv (head : ν) (s : LSt n ν K) : Prop where
  par : Inv False head s.par
  shape : Shape head s.par s.on
  reader : s.reader = .idle ∨
    ∃ seen, Seen head s.par s.on s.kept s.met seen ∧ ReaderInv head s.par s.kept s.met seen s.reader

theorem Change.key_eq (h : Change head s on s' on') (hp : Node head s p) : s'.key p = s.key p := by
  cases h with
  | quiet hq => exact hq.key p hp
  | link _ _ _ hkey => rw [hkey]
  | unlink _ _ _ hkey => rw [hkey]

omit [DecidableEq ν] in
theorem ReaderInv.change {r : Reader ν K} {seen' : ν → ℕ → Prop} (hi : Inv E head s) (hs : Seen head s on kept met seen)
    (h : ReaderInv head s kept met seen r) (hkey : ∀ p, Node head s p → s'.key p = s.key p)
    (hseen : ∀ p i, seen p i → seen' p i) (hkept : ∀ x, kept' x = true → kept x = true)
    (hmet : ∀ p, met p = true → met' p = true) : ReaderInv head s' kept' met' seen' r := by
  have hkx : ∀ {x}, kept x = true → s'.key x = s.key x := fun hx =>
    hkey _ (hs.node hi (hs.ofOn _ 0 (hs.stays _ hx).1))
  have hfound : ∀ {key} {P : ν → Prop}, (∀ x, x ≠ head → s.key x = key → kept x = true → P x) →
      ∀ x, x ≠ head → s'.key x = key → kept' x = true → P x := fun h x hx hk hx' =>
    h x hx ((hkx (hkept x hx')).symm.trans hk) (hkept x hx')
  cases r with
  | idle => trivial
  | walk key level slp =>
    refine ⟨hseen slp level h.1, ?_⟩
    rw [hkey slp (hs.node hi h.1)]
    exact h.2
  | again key slp next => exact ⟨hseen slp 0 h.1, hfound h.2⟩
  | deleted key slp => exact ⟨h.1, hseen slp 0 h.2.1, hfound h.2.2⟩
  | returned key r =>
    refine ⟨hfound h.1, fun hno => h.2 fun x hx hm => ?_⟩
    rw [← hkey x (hs.metNode x hm)]
    exact hno x hx (hmet x hm)

omit [LinearOrder K] [DecidableEq ν] in
theorem whole_spec {S : LSt n ν K} (hx : S.whole x = true) : S.on x 0 = true ∧ S.par.deleted x = false := by
  simp only [LSt.whole, Bool.and_eq_true, Bool.not_eq_true', List.all_eq_true, List.mem_range] at hx
  exact ⟨hx.2 0 (Nat.succ_pos _), hx.1⟩

omit [DecidableEq ν] in
/-- What was noted for level 0 leads to the node with the key. -/
theorem Seen.last (hi : Inv E head s) (h : Seen head s on kept met seen) (hslp : seen slp 0)
    (hlow : slp = head ∨ s.key slp < key) (hx : x ≠ head) (hk : s.key x = key) (hkept : kept x = true) :
    ∃ q, s.next slp 0 = some q ∧ (q = x ∨ s.key q < key) := by
  obtain ⟨q, hq, hqx⟩ := h.near x slp hkept hslp ⟨hx, hlow.imp_right fun hlt => hk ▸ hlt⟩
  have hqh : q ≠ head := (hi.link slp 0 q (h.valid slp 0 hslp) hq).2.2.1
  exact ⟨q, hq, hqx.imp_right fun hlt => hk ▸ hlt.2.resolve_left hqh⟩

namespace LInv

variable {S S' : LSt n ν K} (h : LInv head S)
include h

/-- A thread takes a step. -/
theorem step (hs : S.stepThread head t = some S') (hall : NotesAll S.par t) : LInv head S' := by
  obtain ⟨par, hp, rfl⟩ := Option.map_eq_some_iff.mp hs
  obtain ⟨hshape, hch⟩ := h.shape.step h.par hp hall
  have hi' : Inv False head par := h.par.step hp (h.shape.rises h.par) False.elim
  refine ⟨hi', hshape, h.reader.imp_right ?_⟩
  rintro ⟨seen, hseen, hr⟩
  have hkept : ∀ x, (LSt.watch { S with par, on := linksTo S.on (S.par.loc t) }).kept x = true →
      S.kept x = true ∧ linksTo S.on (S.par.loc t) x 0 = true ∧ par.deleted x = false := fun x hx => by
    obtain ⟨h1, h2⟩ := Bool.and_eq_true_iff.mp hx
    exact ⟨h1, whole_spec h2⟩
  have hmet : ∀ p, (LSt.watch { S with par, on := linksTo S.on (S.par.loc t) }).met p = true ↔
      S.met p = true ∨ linksTo S.on (S.par.loc t) p 0 = true := fun p => Bool.or_eq_true_iff
  obtain ⟨seen', hseen', hsub⟩ := hseen.change h.par hch hkept hmet fun p hp => hshape.chains.node hi' hp
  exact ⟨seen', hseen', hr.change h.par hseen (fun p hp => hch.key_eq hp) hsub (fun x hx => (hkept x hx).1)
    fun p hp => (hmet p).mpr (.inl hp)⟩

/-- A call starts. -/
theorem start {c : Call ν K} (hs : S.start head t c = some S') : LInv head S' := by
  obtain ⟨hc, par, hp, rfl⟩ : Updates c ∧ ∃ par, Par.start head S.par t c = some par ∧ { S with par } = S' := by
    cases c with
    | insert new key toplevel => exact ⟨trivial, Option.map_eq_some_iff.mp hs⟩
    | delete key => exact ⟨trivial, Option.map_eq_some_iff.mp hs⟩
    | _ => cases hs
  obtain ⟨hshape, hch⟩ := h.shape.start h.par hc hp
  have hidle : False → S.par.loc t = .idle := False.elim
  have hdel : par.deleted = S.par.deleted := start_deleted hp
  refine ⟨h.par.start hp hidle, hshape, h.reader.imp_right ?_⟩
  rintro ⟨seen, hseen, hr⟩
  obtain ⟨seen', hseen', hsub⟩ := hseen.change h.par hch
    (fun x hx => ⟨hx, (hseen.stays x hx).1, by rw [hdel]; exact (hseen.stays x hx).2⟩)
    (fun p => (or_iff_left_of_imp fun hp => hseen.isMet p (hseen.ofOn p 0 hp)).symm)
    fun p hp => hshape.chains.node (h.par.start ‹_› hidle) hp
  exact ⟨seen', hseen', hr.change h.par hseen (fun p hp => hch.key_eq hp) hsub (fun x hx => hx) fun p hp => hp⟩

omit [DecidableEq ν] in
/-- A lookup starts. -/
theorem lookup (hs : S.lookup head key = some S') : LInv head S' := by
  have hgo : LInv head { S with
      reader := .walk key (S.par.toplevel head) head
      kept := S.whole
      met := fun p => S.on p 0 } := by
    refine ⟨h.par, h.shape, .inr ⟨_, Seen.start h.par h.shape.chains fun x hx => whole_spec hx, ?_, .inl rfl⟩⟩
    rw [h.par.top]
    exact h.shape.chains.headOn _ (by decide)
  unfold LSt.lookup at hs
  split at hs
  · cases hs
    exact hgo
  · cases hs
    exact hgo
  · cases hs

/-- **The lookup takes a step.** -/
theorem look (hs : S.look head = some S') (hsame : SameLink S) : LInv head S' := by
  have hgo : ∀ {seen r}, Seen head S.par S.on S.kept S.met seen → ReaderInv head S.par S.kept S.met seen r →
      LInv head (S.goto r) := fun hseen hr => ⟨h.par, h.shape, .inr ⟨_, hseen, hr⟩⟩
  rcases h.reader with hidle | ⟨seen, hseen, hr⟩
  · rw [LSt.look, hidle] at hs
    cases hs
  cases hreader : S.reader with
  | idle | returned key r =>
    rw [LSt.look, hreader] at hs
    cases hs
  | walk key level slp =>
    rw [hreader] at hr
    obtain ⟨hslp, hlow⟩ := hr
    have hdown : (∀ q, S.par.next slp level = some q → ¬ S.par.key q < key) →
        ReaderInv head S.par S.kept S.met seen (LSt.down key level slp (S.par.next slp level)) := fun hge => by
      cases level with
      | zero =>
        refine ⟨hslp, fun x hx hk hkept => ?_⟩
        obtain ⟨q, hq, rfl | hlt⟩ := hseen.last h.par hslp hlow hx hk hkept
        · exact hq
        · exact absurd hlt (hge q hq)
      | succ level => exact ⟨hseen.down slp (level + 1) level hslp (Nat.le_succ level), hlow⟩
    rw [LSt.look, hreader] at hs
    dsimp only at hs
    cases hnext : S.par.next slp level with
    | none =>
      rw [hnext] at hs hdown
      cases hs
      exact hgo hseen (hdown nofun)
    | some q =>
      rw [hnext] at hs hdown
      cases hs
      refine hgo hseen ?_
      split
      · next hlt => exact ⟨hseen.next slp level q hslp hnext, .inr hlt⟩
      · next hge => exact hdown fun q' hq' => Option.some.inj hq' ▸ hge
  | again key slp next =>
    rw [hreader] at hr
    obtain ⟨hslp, hfound⟩ := hr
    rw [SameLink, hreader] at hsame
    rw [LSt.look, hreader] at hs
    dsimp only at hs hsame
    cases hnext : S.par.next slp 0 with
    | none =>
      rw [hnext] at hs hsame
      cases hs
      exact hgo hseen ⟨fun x hx hk hkept => hsame.trans (hfound x hx hk hkept), fun _ => rfl⟩
    | some q =>
      rw [hnext] at hs hsame
      cases hs
      have hq : ∀ x, x ≠ head → S.par.key x = key → S.kept x = true → q = x := fun x hx hk hkept =>
        Option.some.inj (hsame.trans (hfound x hx hk hkept))
      refine hgo hseen ?_
      split
      · next hqh => exact ⟨fun x hx hk hkept => absurd ((hq x hx hk hkept).symm.trans hqh) hx, fun _ => rfl⟩
      · next hqh => exact ⟨hqh, hseen.next slp 0 q hslp hnext, hq⟩
  | deleted key slp =>
    rw [hreader] at hr
    obtain ⟨hne, hslp, hfound⟩ := hr
    rw [LSt.look, hreader] at hs
    cases hs
    refine hgo hseen ⟨fun x hx hk hkept => ?_, fun hno => ?_⟩
    · obtain rfl := hfound x hx hk hkept
      exact if_pos ⟨(hseen.stays slp hkept).2, hk⟩
    · exact if_neg fun hc => hno slp hne (hseen.isMet slp hslp) hc.2

omit [DecidableEq ν] in
theorem returns : Returns head S := fun key r hr => by
  rcases h.reader with hidle | ⟨seen, -, hinv⟩
  · rw [hidle] at hr
    cases hr
  · rw [hr] at hinv
    exact hinv

end LInv

omit [DecidableEq ν] in
theorem linv_init {S : LSt n ν K} (h : Init head S) : LInv head S := by
  have hhead : ∀ {p i}, S.on p i = true → p = head ∧ i < maxLevels := fun hp => (h.on _ _).mp hp
  have htop : S.par.toplevel head = maxLevels - 1 := h.par.toplevel
  refine ⟨inv_init h.par, ⟨⟨fun i hi => (h.on head i).mpr ⟨rfl, hi⟩, fun p i hp => (h.par.valid p i).mpr (hhead hp),
    fun p i hp => ?_, fun p i j hp hij => ?_, fun p i q hp hq => ?_, fun p y i hp hy hlt => ?_,
    fun p q hp hq hph => absurd (hhead hp).1 hph, fun p i hp hpi him => ?_⟩, fun p hin => ?_, fun t => ?_⟩,
    .inl h.reader⟩
  · obtain ⟨rfl, hi⟩ := hhead hp
    rw [htop]
    exact Nat.le_pred_of_lt hi
  · obtain ⟨rfl, hi⟩ := hhead hp
    exact (h.on p j).mpr ⟨rfl, hij.trans_lt hi⟩
  · obtain ⟨rfl, hi⟩ := hhead hp
    rw [h.par.next i hi] at hq
    cases hq
  · exact absurd (hhead hy).1 hlt.1
  · rcases hp with rfl | hin
    · exact h.par.next i him
    · rw [h.par.stage p] at hin
      cases hin
  · rw [h.par.stage p] at hin
    cases hin
  · rw [h.par.loc t]
    trivial

/-- **A lookup does not miss a node that is there**, when its second look at the link finds what the search has
found, and the deletions unlink nodes on all levels. -/
theorem lookups_find {S : LSt n ν K} (h : (sys n ν K head).Reach Act.Fits S) : Returns head S := by
  refine (h.inv (fun s => linv_init) fun a s s' hi hok hn => ?_ : LInv head S).returns
  cases a with
  | call t c => exact hi.start hn
  | step t => exact hi.step hn hok
  | lookup key => exact hi.lookup hn
  | look => exact hi.look hn hok

/-! ### Two runs -/

/-- An empty skiplist. -/
def blank : LSt 1 ℕ ℕ where
  par :=
    { key := fun _ => 0
      toplevel := fun p => if p = 0 then maxLevels - 1 else 0
      deleted := fun _ => false
      next := fun _ _ => none
      lock := fun _ => none
      loc := fun _ => .idle
      stage := fun _ => .free
      valid := fun p level => decide (p = 0 ∧ level < maxLevels) }
  on p level := decide (p = 0 ∧ level < maxLevels)
  reader := .idle
  kept _ := false
  met _ := false

theorem blank_init : Init 0 blank where
  par := ⟨rfl, fun _ _ => rfl, fun _ => rfl, fun _ => rfl, fun _ => rfl, fun _ _ => decide_eq_true_iff⟩
  on _ _ := decide_eq_true_iff
  reader := rfl

/-- An insertion on level 0, from its start to its end. -/
def inserts (new key : ℕ) : List (Act 1 ℕ ℕ) := .call 0 (.insert new key 0) :: List.replicate 21 (.step 0)

/-- What the lookup returns, and whether node 1 was there all the time. -/
def outcome (s : LSt 1 ℕ ℕ) : Option (Option ℕ) × Bool :=
  (match s.reader with
    | .returned _ r => some r
    | _ => none, s.kept 1)

/-- Node 1 is looked up while a smaller key is inserted. -/
def finding : List (Act 1 ℕ ℕ) :=
  inserts 1 2 ++ .lookup 2 :: List.replicate 4 .look ++ inserts 2 1 ++ List.replicate 7 .look

theorem lookups_find_run : ∃ S, (sys 1 ℕ ℕ 0).Reach Act.Fits S ∧ outcome S = (some (some 1), true) ∧
    Returns 0 S := by
  have hrun : ((sys 1 ℕ ℕ 0).run Act.Fits finding blank).map outcome = some (some (some 1), true) := by
    decide +kernel
  obtain ⟨S, hs, hd⟩ := Option.map_eq_some_iff.mp hrun
  have hr := Sys.run_reach (.init blank_init) hs
  exact ⟨S, hr, hd, lookups_find hr⟩

/-- The smaller key is inserted between the two looks at the link behind the head. -/
def missing : List (Act 1 ℕ ℕ) :=
  inserts 1 2 ++ .lookup 2 :: List.replicate 8 .look ++ inserts 2 1 ++ List.replicate 2 .look

/-- The lookup returns `NULL`, and the node with the key was there all the time. -/
theorem lookup_misses : ¬ ∀ S, (sys 1 ℕ ℕ 0).Reach Sys.always S → Returns 0 S := by
  have hrun : ((sys 1 ℕ ℕ 0).run Sys.always missing blank).map
      (fun S => (S.reader, S.kept 1, S.par.key 1)) = some (.returned 2 none, true, 2) := by
    decide +kernel
  obtain ⟨S, hs, hd⟩ := Option.map_eq_some_iff.mp hrun
  simp only [Prod.mk.injEq] at hd
  intro hall
  have := (hall S (Sys.run_reach (.init blank_init) hs) 2 none hd.1).1 1 (by decide) hd.2.2 hd.2.1
  cases this

end Relaxed
end Skip
end Perfbook
