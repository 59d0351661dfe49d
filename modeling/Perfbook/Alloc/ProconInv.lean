/-
# The blocks of a `procon.h` pool

A block that no user has is in one of three chains or is about to be returned
(`InvAt.places`): from `pm_head`, from the head of the buffer, or from `pm_unalloc`. The
buffer needs its last link only when it is linked behind the pool, and so it is enough
that the block that fills it has nothing there (`FillsWithNull`).

Key definitions: `FreeInv`, `AllocInv`, `InvAt`.
Key theorems: `InvAt.oneOwner`, `InvAt.out`, `InvAt.put`, `InvAt.publish`.
-/
import Mathlib.Data.List.Perm.Basic
import Perfbook.Alloc.Procon

namespace Perfbook
namespace Procon

open Conc
open scoped List

/-- What is known of the buffer, where the freeing thread is. -/
def FreeInv (s : St) (pub buf : List ℕ) : Free → Prop
  | .idle => buf.length < PROCON_MAX_BUF ∧ s.pmTail = before .pmHead (cells pub)
  | .exchange => s.pbTail.isSome = true ∧ Linked s.link .pbHead (cells buf) ∧ buf ≠ [] ∧
      s.pmTail = before .pmHead (cells pub)
  | .link oldtail => Linked s.link .pbHead (cells buf) ∧ buf ≠ [] ∧ oldtail = before .pmHead (cells pub) ∧
      s.pmTail = before .pbHead (cells buf)

/-- What is known of the pool, where the allocating thread is. -/
def AllocInv (pub un : List ℕ) : Alloc → Prop
  | .idle | .fresh | .clear _ => True
  | .test pmbp => ∀ b, pmbp = some b → ∃ r, pub = b :: r
  | .out pmbp => un ≠ [] ∨ ∃ b c r, pmbp = some b ∧ pub = b :: c :: r
  | .head b next => ∃ c r, pub = b :: c :: r ∧ next = some c

structure InvAt (s : St) (pub buf un : List ℕ) : Prop where
  nodup : (pub ++ buf ++ un ++ s.alloc.taken).Nodup
  places : ∀ b, b ∈ pub ++ buf ++ un ++ s.alloc.taken ↔ s.known b = true ∧ s.allocated b = false
  known : ∀ b, s.allocated b = true → s.known b = true
  pmHead : Linked s.link .pmHead (cells pub)
  pbHead : Through s.link .pbHead (cells buf)
  pmUnalloc : Linked s.link .pmUnalloc (cells un)
  count : buf.length = s.pbCount
  full : s.pbCount ≤ PROCON_MAX_BUF
  pbTail : s.pbTail.getD .pbHead = before .pbHead (cells buf)
  freed : ∀ b ∈ pub ++ buf, s.freed b = true
  free : FreeInv s pub buf s.free
  alloc : AllocInv pub un s.alloc

def Inv (s : St) : Prop := ∃ pub buf un, InvAt s pub buf un

variable {s s' : St} {pub buf un l : List ℕ} {b c : ℕ} {p q : Link} {v : Option ℕ}

theorem mem_cells (hp : p ∈ cells l) : ∃ b ∈ l, p = .next b := by
  obtain ⟨b, hb, rfl⟩ := List.mem_map.mp hp
  exact ⟨b, hb, rfl⟩

/-- The last link of a chain is where it starts, or one of its blocks'. -/
theorem before_cells (p : Link) (l : List ℕ) : before p (cells l) = p ∨ ∃ b ∈ l, before p (cells l) = .next b := by
  rcases List.mem_cons.mp (before_mem (p := p) (l := cells l)) with hb | hb
  · exact .inl hb
  · exact .inr (mem_cells hb)

/-- The link of a block that is not in the chain is not the last one of it. -/
theorem next_ne_last (hp : ∀ c, p ≠ .next c) (hb : b ∉ l) : Link.next b ≠ before p (cells l) := by
  refine ne_before fun hm => ?_
  obtain ⟨d, hd, heq⟩ := mem_cells ((List.mem_cons.mp hm).resolve_left fun he => hp b he.symm)
  cases heq
  exact hb hd

/-- Nor is a link where another chain begins. -/
theorem root_ne_last {r : Link} (hr : r ≠ p) (hr' : ∀ c, r ≠ .next c) : r ≠ before p (cells l) := by
  refine ne_before fun hm => ?_
  obtain ⟨d, -, heq⟩ := mem_cells ((List.mem_cons.mp hm).resolve_left hr)
  exact hr' d heq

theorem allocated_of_put (hc : Function.update s.allocated b false c = true) : s.allocated c = true := by
  have hcb : c ≠ b := fun hcb => by
    rw [hcb, Function.update_self] at hc
    cases hc
  rwa [Function.update_of_ne hcb] at hc

theorem cells_nodup (hl : l.Nodup) (hp : ∀ b, p ≠ .next b) : (p :: cells l).Nodup := by
  refine List.nodup_cons.mpr ⟨fun hm => ?_, hl.map fun _ _ => Link.next.inj⟩
  obtain ⟨b, -, heq⟩ := mem_cells hm
  exact hp b heq

theorem linked_congr (h : Linked s.link p (cells l)) (hp : s'.mem p = s.mem p)
    (hl : ∀ b ∈ l, s'.mem (.next b) = s.mem (.next b)) : Linked s'.link p (cells l) :=
  h.congr fun q hq => by
    rcases List.mem_cons.mp hq with rfl | hq
    · rw [St.link, St.link, hp]
    · obtain ⟨b, hb, rfl⟩ := mem_cells hq
      rw [St.link, St.link, hl b hb]

theorem through_congr (h : Through s.link p (cells l)) (hp : s'.mem p = s.mem p)
    (hl : ∀ b ∈ l, s'.mem (.next b) = s.mem (.next b)) : Through s'.link p (cells l) :=
  h.congr fun q hq => by
    rcases List.mem_cons.mp ((List.dropLast_sublist _).subset hq) with rfl | hq
    · rw [St.link, St.link, hp]
    · obtain ⟨b, hb, rfl⟩ := mem_cells hq
      rw [St.link, St.link, hl b hb]

theorem linked_moved (h : Linked s.link p (cells l)) (hq : s'.mem q = s.mem p)
    (hl : ∀ b ∈ l, s'.mem (.next b) = s.mem (.next b)) : Linked s'.link q (cells l) :=
  h.moved (by rw [St.link, St.link, hq]) fun r hr => by
    obtain ⟨b, hb, rfl⟩ := mem_cells hr
    rw [St.link, St.link, hl b hb]

/-- The first block of a chain. -/
theorem eq_nil_of_linked (h : Linked s.link p (cells l)) (hp : s.mem p = none) : l = [] := by
  cases l with
  | nil => rfl
  | cons b r =>
    have h1 := h.1
    rw [St.link, hp] at h1
    cases h1

theorem eq_cons_of_linked (h : Linked s.link p (cells l)) (hp : s.mem p = some b) :
    ∃ r, l = b :: r ∧ Linked s.link (.next b) (cells r) := by
  cases l with
  | nil =>
    have h1 : s.link p = none := h
    rw [St.link, hp] at h1
    cases h1
  | cons c r =>
    obtain ⟨h1, h2⟩ := h
    rw [St.link, hp] at h1
    cases h1
    exact ⟨r, rfl, h2⟩

theorem mem_of_linked_cons (h : Linked s.link p (cells (b :: l))) : s.mem p = some b := by
  obtain ⟨c, hc, heq⟩ := Option.map_eq_some_iff.mp h.1
  rw [hc, Link.next.inj heq]

/-- Another link keeps the buffer. -/
theorem FreeInv.congr {f : Free} (h : FreeInv s pub buf f) (htail : s'.pmTail = s.pmTail) (hpb : s'.pbTail = s.pbTail)
    (hp : s'.mem .pbHead = s.mem .pbHead) (hl : ∀ b ∈ buf, s'.mem (.next b) = s.mem (.next b)) :
    FreeInv s' pub buf f := by
  cases f with
  | idle => exact ⟨h.1, htail.trans h.2⟩
  | exchange => exact ⟨hpb ▸ h.1, linked_congr h.2.1 hp hl, h.2.2.1, htail.trans h.2.2.2⟩
  | link old => exact ⟨linked_congr h.1 hp hl, h.2.1, h.2.2.1, htail.trans h.2.2.2⟩

namespace InvAt

variable (hi : InvAt s pub buf un)
include hi

/-- A block of a user is in no chain. -/
theorem not_mem (hb : s.allocated b = true) : b ∉ pub ∧ b ∉ buf ∧ b ∉ un ∧ b ∉ s.alloc.taken := by
  have hn : ¬ (s.known b = true ∧ s.allocated b = false) := fun h => by
    rw [hb] at h
    cases h.2
  rw [← hi.places b] at hn
  simpa only [List.mem_append, not_or, and_assoc] using hn

theorem tail_mem (hp : s.pmTail = .next b) : b ∈ pub ++ buf := by
  have hf := hi.free
  have hpub : s.pmTail = before .pmHead (cells pub) → b ∈ pub ++ buf := fun ht => by
    rcases before_cells .pmHead pub with h | ⟨c, hc, h⟩
    · cases hp.symm.trans (ht.trans h)
    · cases hp.symm.trans (ht.trans h)
      exact List.mem_append_left _ hc
  revert hf
  cases s.free with
  | idle => exact fun hf => hpub hf.2
  | exchange => exact fun hf => hpub hf.2.2.2
  | link old =>
    intro hf
    rcases before_cells .pbHead buf with h | ⟨c, hc, h⟩
    · cases hp.symm.trans (hf.2.2.2.trans h)
    · cases hp.symm.trans (hf.2.2.2.trans h)
      exact List.mem_append_right _ hc

/-- **The invariant is what is promised.** -/
theorem oneOwner : OneOwner s where
  places := by
    refine ⟨pub, buf, un, hi.nodup, hi.places, hi.pmHead, hi.pbHead, hi.pmUnalloc, hi.count, hi.full, ?_⟩
    have hf := hi.free
    revert hf
    cases s.free with
    | idle => exact fun hf => hf.2
    | exchange => exact fun hf => hf.2.2.2
    | link old => exact fun hf => hf.2.2
  known := hi.known
  last b hb := by
    have hm := hi.tail_mem hb
    refine ⟨((hi.places b).mp (List.mem_append_left _ (List.mem_append_left _ hm))).2, fun hc => ?_⟩
    have hn := hi.nodup
    rw [hc, List.append_assoc] at hn
    exact List.disjoint_of_nodup_append hn hm (List.mem_append_right _ List.mem_cons_self)
  runs hidle hfresh := by
    have ha := hi.alloc
    have hun := hi.pmUnalloc
    rw [Procon.stepAlloc]
    revert hidle hfresh ha
    cases s.alloc with
    | idle => exact fun h => absurd rfl h
    | fresh => exact fun _ h => absurd rfl h
    | test pmbp | head b next | clear b => exact fun _ _ _ => rfl
    | out pmbp =>
      intro _ _ ha
      dsimp only
      cases hm : s.mem .pmUnalloc with
      | some b => rfl
      | none =>
        rcases ha with ha | ⟨b, -, -, rfl, -⟩
        · exact absurd (eq_nil_of_linked hun hm) ha
        · rfl
  frees hidle := by
    have hf := hi.free
    rw [Procon.stepFree]
    revert hidle hf
    cases s.free with
    | idle => exact fun h => absurd rfl h
    | exchange =>
      intro _ hf
      obtain ⟨tail, ht⟩ := Option.isSome_iff_exists.mp hf.1
      rw [ht]
      rfl
    | link old => exact fun _ _ => rfl

/-! ### The allocating thread -/

/-- A step that changes only where the thread is. -/
theorem onward {a : Alloc} (ht : s.alloc.taken = []) (ha : a.taken = []) (hinv : AllocInv pub un a) :
    InvAt { s with alloc := a } pub buf un :=
  ⟨by simpa only [ha, ht] using hi.nodup, by simpa only [ha, ht] using hi.places, hi.known, hi.pmHead, hi.pbHead,
    hi.pmUnalloc, hi.count, hi.full, hi.pbTail, hi.freed, hi.free.congr rfl rfl rfl fun _ _ => rfl, hinv⟩

theorem call (hidle : s.alloc = .idle) : InvAt { s with alloc := .test (s.mem .pmHead) } pub buf un := by
  refine hi.onward (by rw [hidle]; rfl) rfl fun b hb => ?_
  obtain ⟨r, hr, -⟩ := eq_cons_of_linked hi.pmHead hb
  exact ⟨r, hr⟩

theorem test {pmbp : Option ℕ} (ha : s.alloc = .test pmbp) (hn : stepAlloc s = some s') : InvAt s' pub buf un := by
  have hinv := hi.alloc
  rw [ha] at hinv
  rw [Procon.stepAlloc, ha] at hn
  cases hn
  refine hi.onward (by rw [ha]; rfl) (by split <;> rfl) ?_
  split
  · trivial
  · next hnot =>
    by_cases hm : s.mem .pmUnalloc = none
    · refine Or.inr ?_
      cases pmbp with
      | none => exact absurd ⟨rfl, hm⟩ hnot
      | some b =>
        obtain ⟨r, rfl⟩ := hinv b rfl
        cases r with
        | nil =>
          -- the last one stays
          have hlast : s.link (.next b) = none := hi.pmHead.2
          exact absurd ⟨decide_eq_true (Option.map_eq_none_iff.mp hlast), hm⟩ hnot
        | cons c r => exact ⟨b, c, r, rfl, rfl⟩
    · refine Or.inl fun hnil => hm ?_
      have hun := hi.pmUnalloc
      rw [hnil] at hun
      exact Option.map_eq_none_iff.mp hun

/-- **A block is taken.** -/
theorem out {pmbp : Option ℕ} (ha : s.alloc = .out pmbp) (hn : stepAlloc s = some s') : Inv s' := by
  have hinv := hi.alloc
  rw [ha] at hinv
  rw [Procon.stepAlloc, ha] at hn
  dsimp only at hn
  have hnd := hi.nodup
  have hpl := hi.places
  rw [ha] at hnd hpl
  cases hm : s.mem .pmUnalloc with
  | some b =>
    rw [hm] at hn
    cases hn
    obtain ⟨r, rfl, hr⟩ := eq_cons_of_linked hi.pmUnalloc hm
    have hperm : pub ++ buf ++ r ++ [b] ~ pub ++ buf ++ (b :: r) ++ [] := by
      rw [List.append_assoc, List.append_nil]
      exact List.Perm.append_left _ (List.perm_append_singleton b r)
    exact ⟨pub, buf, r, hperm.nodup_iff.mpr hnd, fun c => hperm.mem_iff.trans (hpl c), hi.known,
      linked_congr hi.pmHead rfl fun _ _ => rfl, through_congr hi.pbHead rfl fun _ _ => rfl,
      linked_moved hr rfl fun _ _ => rfl, hi.count, hi.full, hi.pbTail, hi.freed,
      hi.free.congr rfl rfl rfl fun _ _ => rfl, trivial⟩
  | none =>
    obtain ⟨b, c, r, rfl, rfl⟩ := hinv.resolve_left (not_not.mpr (eq_nil_of_linked hi.pmUnalloc hm))
    rw [hm] at hn
    cases hn
    exact ⟨b :: c :: r, buf, un, hi.onward (by rw [ha]; rfl) rfl ⟨c, r, rfl, mem_of_linked_cons hi.pmHead.2⟩⟩

theorem head {x : Option ℕ} (ha : s.alloc = .head b x) (hn : stepAlloc s = some s') : Inv s' := by
  have hinv := hi.alloc
  rw [ha] at hinv
  obtain ⟨c, r, rfl, rfl⟩ := hinv
  rw [Procon.stepAlloc, ha] at hn
  cases hn
  have hnd := hi.nodup
  have hpl := hi.places
  rw [ha] at hnd hpl
  have hperm : c :: r ++ buf ++ un ++ [b] ~ b :: c :: r ++ buf ++ un ++ [] := by
    rw [List.append_nil]
    exact List.perm_append_singleton b (c :: r ++ buf ++ un)
  have hmem : setLink s .pmHead (some c) .pmHead = s.mem (.next b) :=
    (Function.update_self ..).trans (mem_of_linked_cons hi.pmHead.2).symm
  have hlast : before .pmHead (cells (c :: r)) = before .pmHead (cells (b :: c :: r)) := by
    simp only [cells, List.map_cons, before_cons]
  refine ⟨c :: r, buf, un, hperm.nodup_iff.mpr hnd, fun d => hperm.mem_iff.trans (hpl d), hi.known,
    linked_moved hi.pmHead.2 hmem fun _ _ => rfl, through_congr hi.pbHead rfl fun _ _ => rfl,
    linked_congr hi.pmUnalloc rfl fun _ _ => rfl, hi.count, hi.full, hi.pbTail,
    fun d hd => hi.freed d (List.mem_cons_of_mem _ hd), ?_, trivial⟩
  -- the last block is the same
  have hf : FreeInv s (c :: r) buf s.free := by
    have hf := hi.free
    revert hf
    cases s.free with
    | idle => exact fun hf => ⟨hf.1, hf.2.trans hlast.symm⟩
    | exchange => exact fun hf => ⟨hf.1, hf.2.1, hf.2.2.1, hf.2.2.2.trans hlast.symm⟩
    | link old => exact fun hf => ⟨hf.1, hf.2.1, hf.2.2.1.trans hlast.symm, hf.2.2.2⟩
  exact hf.congr rfl rfl rfl fun _ _ => rfl

/-- The block is the user's. -/
theorem clear (ha : s.alloc = .clear b) (hn : stepAlloc s = some s') : InvAt s' pub buf un := by
  rw [Procon.stepAlloc, ha] at hn
  cases hn
  have hnd := hi.nodup
  have hpl := hi.places
  rw [ha] at hnd hpl
  have hnot : b ∉ pub ++ buf ++ un := fun hm => List.disjoint_of_nodup_append hnd hm List.mem_cons_self
  have hne : ∀ c ∈ pub ++ buf ++ un, c ≠ b := fun c hc he => hnot (he ▸ hc)
  have hmem : ∀ c ∈ pub ++ buf ++ un, setLink s (.next b) none (.next c) = s.mem (.next c) := fun c hc =>
    Function.update_of_ne (fun h => hne c hc (Link.next.inj h)) ..
  have hpub : ∀ c ∈ pub, c ∈ pub ++ buf ++ un := fun c hc => List.mem_append_left _ (List.mem_append_left _ hc)
  have hbuf : ∀ c ∈ buf, c ∈ pub ++ buf ++ un := fun c hc => List.mem_append_left _ (List.mem_append_right _ hc)
  refine ⟨?_, fun c => ?_, fun c hc => ?_, linked_congr hi.pmHead rfl fun c hc => hmem c (hpub c hc),
    through_congr hi.pbHead rfl fun c hc => hmem c (hbuf c hc),
    linked_congr hi.pmUnalloc rfl fun c hc => hmem c (List.mem_append_right _ hc), hi.count, hi.full, hi.pbTail,
    fun c hc => ?_, hi.free.congr rfl rfl rfl fun c hc => hmem c (hbuf c hc), trivial⟩
  · change (pub ++ buf ++ un ++ []).Nodup
    rw [List.append_nil]
    exact hnd.of_append_left
  · change c ∈ pub ++ buf ++ un ++ [] ↔ s.known c = true ∧ Function.update s.allocated b true c = false
    rw [List.append_nil]
    by_cases hcb : c = b
    · subst hcb
      rw [Function.update_self]
      exact iff_of_false hnot nofun
    · rw [Function.update_of_ne hcb, ← hpl c, List.mem_append (t := Alloc.taken _)]
      exact (or_iff_left fun hm => hcb (List.mem_singleton.mp hm)).symm
  · by_cases hcb : c = b
    · subst hcb
      exact ((hpl c).mp (List.mem_append_right _ List.mem_cons_self)).1
    · exact hi.known c ((Function.update_of_ne hcb ..).symm.trans hc)
  · exact (Function.update_of_ne (hne c (List.mem_append_left _ hc)) ..).trans (hi.freed c hc)

theorem stepAlloc (hn : stepAlloc s = some s') : Inv s' := by
  cases ha : s.alloc with
  | idle | fresh =>
    rw [Procon.stepAlloc, ha] at hn
    cases hn
  | test pmbp => exact ⟨pub, buf, un, hi.test ha hn⟩
  | out pmbp => exact hi.out ha hn
  | head b x => exact hi.head ha hn
  | clear b => exact ⟨pub, buf, un, hi.clear ha hn⟩

/-- A new block is the user's. -/
theorem pmAlloc {x : Option ℕ} (hn : next s (.pmAlloc x) = some s') : InvAt s' pub buf un := by
  unfold Procon.next at hn
  dsimp only at hn
  split at hn
  · next ha =>
    cases hn
    exact hi.onward (by rw [ha]; rfl) rfl trivial
  · next b ha =>
    split at hn
    · cases hn
    · next hk =>
      cases hn
      have hnd := hi.nodup
      have hpl := hi.places
      rw [ha] at hnd hpl
      have hne : ∀ c ∈ pub ++ buf ++ un ++ Alloc.fresh.taken, c ≠ b := fun c hc he => hk (he ▸ ((hpl c).mp hc).1)
      refine ⟨hnd, fun c => ?_, fun c hc => ?_, hi.pmHead, hi.pbHead, hi.pmUnalloc, hi.count, hi.full, hi.pbTail,
        fun c hc => ?_, hi.free.congr rfl rfl rfl fun _ _ => rfl, trivial⟩
      · change _ ↔ Function.update s.known b true c = true ∧ Function.update s.allocated b true c = false
        by_cases hcb : c = b
        · rw [hcb, Function.update_self, Function.update_self]
          exact iff_of_false (fun hm => hne b hm rfl) nofun
        · rw [Function.update_of_ne hcb, Function.update_of_ne hcb]
          exact hpl c
      · change Function.update s.known b true c = true
        change Function.update s.allocated b true c = true at hc
        by_cases hcb : c = b
        · rw [hcb, Function.update_self]
        · rw [Function.update_of_ne hcb] at hc ⊢
          exact hi.known c hc
      · exact hi.freed c hc
  · cases hn

/-- A block of the user goes to one of the chains. -/
theorem places_put (hb : s.allocated b = true) {l l' : List ℕ}
    (hl : ∀ c, c ∈ l ↔ s.known c = true ∧ s.allocated c = false) (hl' : ∀ c, c ∈ l' ↔ c = b ∨ c ∈ l) (c : ℕ) :
    c ∈ l' ↔ s.known c = true ∧ Function.update s.allocated b false c = false := by
  rw [hl' c]
  by_cases hcb : c = b
  · subst hcb
    rw [Function.update_self]
    exact iff_of_true (.inl rfl) ⟨hi.known c hb, rfl⟩
  · rw [Function.update_of_ne hcb, ← hl c]
    exact or_iff_right hcb

/-- **A block is unallocated.** -/
theorem unalloc (hn : next s (.unalloc b) = some s') : InvAt s' pub buf (b :: un) := by
  rw [next] at hn
  split at hn
  · next hg =>
    cases hn
    obtain ⟨ha, hb⟩ := hg
    obtain ⟨hnp, hnb, hnu, -⟩ := hi.not_mem hb
    have hnd := hi.nodup
    have hpl := hi.places
    have hft := hi.alloc
    rw [ha] at hnd hpl
    have hperm : pub ++ buf ++ (b :: un) ++ [] ~ b :: (pub ++ buf ++ un ++ []) := by
      rw [List.append_nil, List.append_nil]
      exact List.perm_middle
    have hmem : ∀ c, c ≠ b → Function.update (setLink s (.next b) (s.mem .pmUnalloc)) .pmUnalloc (some b) (.next c) =
        s.mem (.next c) := fun c hc => Function.update_of_ne (fun h => hc (Link.next.inj h)) ..
    have hnot : ∀ {l : List ℕ}, b ∉ l → ∀ c ∈ l, c ≠ b := fun hl c hc he => hl (he ▸ hc)
    refine ⟨?_, fun c => ?_, fun c hc => hi.known c ?_, linked_congr hi.pmHead rfl fun c hc => hmem c (hnot hnp c hc),
      through_congr hi.pbHead rfl fun c hc => hmem c (hnot hnb c hc), ⟨rfl, ?_⟩, hi.count, hi.full, hi.pbTail, hi.freed,
      hi.free.congr rfl rfl rfl fun c hc => hmem c (hnot hnb c hc), ?_⟩
    · change (pub ++ buf ++ (b :: un) ++ s.alloc.taken).Nodup
      rw [ha]
      refine hperm.nodup_iff.mpr (List.nodup_cons.mpr ⟨fun hm => ?_, hnd⟩)
      have := ((hpl b).mp hm).2
      rw [hb] at this
      cases this
    · change c ∈ pub ++ buf ++ (b :: un) ++ s.alloc.taken ↔ _
      rw [ha]
      exact hi.places_put hb hpl (fun c => hperm.mem_iff.trans List.mem_cons) c
    · exact allocated_of_put hc
    · refine linked_moved hi.pmUnalloc ?_ fun c hc => hmem c (hnot hnu c hc)
      exact Function.update_self (f := s.mem) ..
    · change AllocInv _ _ s.alloc
      rw [ha]
      trivial
  · cases hn

/-! ### The freeing thread -/

/-- **A block is freed** into the buffer. If it fills the buffer, there is nothing in its link. -/
theorem put (hn : next s (.free b) = some s') (hok : FillsWithNull (.free b) s) : InvAt s' pub (buf ++ [b]) un := by
  rw [next] at hn
  split at hn
  · next hg =>
    cases hn
    obtain ⟨hidle, hb⟩ := hg
    obtain ⟨hnp, hnb, hnu, hnt⟩ := hi.not_mem hb
    have hf := hi.free
    rw [hidle] at hf
    obtain ⟨hlt, htail⟩ := hf
    have hnd := hi.nodup
    have hpl := hi.places
    set old := s.pbTail.getD .pbHead with hold
    have holdeq : old = before .pbHead (cells buf) := hi.pbTail
    have hbufnd : buf.Nodup := hnd.of_append_left.of_append_left.of_append_right
    have hother : ∀ l : Link, l ≠ old → setLink s old (some b) l = s.mem l := fun l hl => Function.update_of_ne hl ..
    have hout : ∀ c, c ∉ buf → Link.next c ≠ old := fun c hc => holdeq ▸ next_ne_last nofun hc
    have hroot : ∀ l : Link, l ≠ .pbHead → (∀ c, l ≠ .next c) → l ≠ old := fun l hl hl' => holdeq ▸ root_ne_last hl hl'
    rw [List.append_assoc, List.append_assoc] at hnd
    have hpubbuf : ∀ c ∈ pub, c ∉ buf := fun c hc hc' =>
      List.disjoint_of_nodup_append hnd hc (List.mem_append_left _ hc')
    have hunbuf : ∀ c ∈ un, c ∉ buf := fun c hc hc' =>
      List.disjoint_of_nodup_append hnd.of_append_right hc' (List.mem_append_left _ hc)
    have hperm : pub ++ (buf ++ [b]) ++ un ++ s.alloc.taken ~ b :: (pub ++ buf ++ un ++ s.alloc.taken) := by
      have h : (pub ++ buf) ++ b :: (un ++ s.alloc.taken) ~ b :: ((pub ++ buf) ++ (un ++ s.alloc.taken)) :=
        List.perm_middle
      simpa only [List.append_assoc, List.singleton_append, List.cons_append, List.nil_append] using h
    have hchain : Through (fun l => (setLink s old (some b) l).map Link.next) .pbHead (cells (buf ++ [b])) := by
      rw [cells, List.map_append]
      refine hi.pbHead.set_last ?_ (fun q _ hq => ?_) (cells_nodup hbufnd nofun)
      · rw [← holdeq]
        exact congrArg _ (Function.update_self ..)
      · change q ≠ before .pbHead (cells buf) at hq
        rw [← holdeq] at hq
        exact congrArg _ (hother q hq)
    have hcount : (buf ++ [b]).length = s.pbCount + 1 := by
      rw [List.length_append, hi.count, List.length_singleton]
    have hlast : before .pbHead (cells (buf ++ [b])) = .next b := by
      rw [cells, List.map_append, before_append]
      rfl
    refine ⟨?_, ?_, fun c hc => hi.known c ?_, linked_congr hi.pmHead (hother _ (hroot _ nofun nofun))
      fun c hc => hother _ (hout c (hpubbuf c hc)), hchain, linked_congr hi.pmUnalloc (hother _ (hroot _ nofun nofun))
      fun c hc => hother _ (hout c (hunbuf c hc)), hcount, ?_, hlast.symm, fun c hc => ?_, ?_, hi.alloc⟩
    · refine hperm.nodup_iff.mpr (List.nodup_cons.mpr ⟨fun hm => ?_, hi.nodup⟩)
      have := ((hpl b).mp hm).2
      rw [hb] at this
      cases this
    · exact hi.places_put hb hpl fun c => hperm.mem_iff.trans List.mem_cons
    · exact allocated_of_put hc
    · change s.pbCount + 1 ≤ PROCON_MAX_BUF
      rw [← hi.count]
      exact hlt
    · change Function.update s.freed b true c = true
      by_cases hcb : c = b
      · rw [hcb, Function.update_self]
      · rw [Function.update_of_ne hcb]
        refine hi.freed c ?_
        rw [← List.append_assoc] at hc
        exact (List.mem_append.mp hc).resolve_right fun hm => hcb (List.mem_singleton.mp hm)
    · change FreeInv _ _ _ (if s.pbCount + 1 < PROCON_MAX_BUF then Free.idle else Free.exchange)
      split
      · next hlt' => exact ⟨by rw [hcount]; exact hlt', htail⟩
      · next hlt' =>
        refine ⟨rfl, Linked.iff_through.mpr ⟨hchain, ?_⟩, by simp, htail⟩
        rw [hlast]
        have hnull : s.mem (.next b) = none := hok.resolve_left hlt'
        exact congrArg _ ((hother _ (hout b hnb)).trans hnull)
  · cases hn

theorem exchange (hf : s.free = .exchange) (hn : stepFree s = some s') : InvAt s' pub buf un := by
  have hinv := hi.free
  rw [hf] at hinv
  obtain ⟨hsome, hlinked, hne, htail⟩ := hinv
  obtain ⟨tail, ht⟩ := Option.isSome_iff_exists.mp hsome
  have hpb := hi.pbTail
  rw [ht] at hpb
  rw [Procon.stepFree, hf, ht] at hn
  cases hn
  exact ⟨hi.nodup, hi.places, hi.known, hi.pmHead, hi.pbHead, hi.pmUnalloc, hi.count, hi.full, hpb, hi.freed,
    ⟨hlinked, hne, htail, hpb⟩, hi.alloc⟩

/-- **The buffer is linked behind the pool.** -/
theorem publish {old : Link} (hf : s.free = .link old) (hn : stepFree s = some s') : InvAt s' (pub ++ buf) [] un := by
  have hinv := hi.free
  rw [hf] at hinv
  obtain ⟨hlinked, hne, hold, htail⟩ := hinv
  rw [Procon.stepFree, hf] at hn
  dsimp only at hn
  cases hn
  have hnd := hi.nodup
  rw [List.append_assoc, List.append_assoc] at hnd
  have hpubnd : pub.Nodup := hnd.of_append_left
  set mem' := Function.update (setLink s old (s.mem .pbHead)) .pbHead none with hmem'
  have hother : ∀ l : Link, l ≠ old → l ≠ .pbHead → mem' l = s.mem l := fun l hl hl' => by
    rw [hmem', Function.update_of_ne hl']
    exact Function.update_of_ne hl ..
  have hout : ∀ c, c ∉ pub → Link.next c ≠ old := fun c hc => hold ▸ next_ne_last nofun hc
  have hroot : ∀ l : Link, l ≠ .pmHead → (∀ c, l ≠ .next c) → l ≠ old := fun l hl hl' => hold ▸ root_ne_last hl hl'
  have hbufpub : ∀ c ∈ buf, c ∉ pub := fun c hc hc' =>
    List.disjoint_of_nodup_append hnd hc' (List.mem_append_left _ hc)
  have hunpub : ∀ c ∈ un, c ∉ pub := fun c hc hc' =>
    List.disjoint_of_nodup_append hnd hc' (List.mem_append_right _ (List.mem_append_left _ hc))
  have hself : mem' old = s.mem .pbHead := by
    have hne' : old ≠ .pbHead := fun he => hroot .pbHead nofun nofun he.symm
    rw [hmem', Function.update_of_ne hne']
    exact Function.update_self ..
  have hchain : Linked (fun l => (mem' l).map Link.next) .pmHead (cells (pub ++ buf)) := by
    have hpub := hi.pmHead
    rw [← List.append_nil (cells pub)] at hpub
    rw [cells, List.map_append]
    refine hpub.splice ?_ (fun q hq hq' => ?_) (cells_nodup hpubnd nofun)
    · rw [← hold]
      refine hlinked.moved (congrArg _ hself) fun q hq => ?_
      obtain ⟨c, hc, rfl⟩ := mem_cells hq
      exact congrArg _ (hother _ (hout c (hbufpub c hc)) nofun)
    · rw [← hold] at hq'
      refine congrArg _ (hother q hq' fun he => ?_)
      rcases List.mem_cons.mp hq with h | hq
      · cases he.symm.trans h
      · obtain ⟨c, -, h⟩ := mem_cells hq
        cases he.symm.trans h
  have hlast : before .pbHead (cells buf) = before .pmHead (cells (pub ++ buf)) := by
    rw [cells, cells, List.map_append, before_append]
    obtain ⟨c, r, rfl⟩ := List.exists_cons_of_ne_nil hne
    rw [List.map_cons, before_cons, before_cons]
  refine ⟨?_, fun c => ?_, hi.known, hchain, trivial, linked_congr hi.pmUnalloc
    (hother .pmUnalloc (hroot .pmUnalloc nofun nofun) nofun)
    fun c hc => hother _ (hout c (hunpub c hc)) nofun, rfl, Nat.zero_le _, rfl, fun c hc => ?_,
    ⟨by decide, htail.trans hlast⟩, ?_⟩
  · rw [List.append_nil]
    exact hi.nodup
  · rw [List.append_nil]
    exact hi.places c
  · rw [List.append_nil] at hc
    exact hi.freed c hc
  · have ha := hi.alloc
    revert ha
    change _ → AllocInv _ _ s.alloc
    cases s.alloc with
    | idle | fresh | clear b => exact id
    | test pmbp =>
      intro ha b hb
      obtain ⟨r, hr⟩ := ha b hb
      exact ⟨r ++ buf, by rw [hr]; rfl⟩
    | out pmbp =>
      intro ha
      refine ha.imp_right fun ⟨b, c, r, hb, hr⟩ => ⟨b, c, r ++ buf, hb, ?_⟩
      rw [hr]
      rfl
    | head b x =>
      intro ha
      obtain ⟨c, r, hr, hx⟩ := ha
      exact ⟨c, r ++ buf, by rw [hr]; rfl, hx⟩

end InvAt
end Procon
end Perfbook
