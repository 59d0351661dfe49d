/-
# What the threads of `skiplist.c` hold

A thread holds the locks of the nodes that it has noted in `update`, and of the
node that it links or unlinks (`Loc.held`). The nodes that it has noted come one
after the other, by their keys (`Entries`), and where a search stands is behind
the last one (`Search`). Each link leads to a larger key (`Inv.link`), so what a
thread locks next is behind all that it holds.

`E` stands for the condition that each call releases all that it has locked. Then a
thread has no locks but those.

A node that is being linked has its lock held, and is behind the node that was
noted for level 0 only (`Inv.linking`), so no other thread finds it complete.

Key definitions: `Loc.held`, `Entries`, `Search`, `LocInv`, `Inv`, `Grows`.
Key theorems: `Below.trans`, `Search.order`, `Inv.order`, `LocInv.grows`.
-/
import Perfbook.Conc.Lock
import Perfbook.Skip.Par

namespace Perfbook
namespace Skip
namespace Par

variable {n : ℕ} {ν K : Type} [LinearOrder K]

/-! ### What a thread holds -/

def Vars.Notes (v : Vars ν) (p : ν) : Prop := ∃ level, v.update level = some p

def After.held : After ν K → ν → Prop
  | .unlock x, p | .hold x, p => p = x
  | _, _ => False

/-- The node is locked by a thread that is there. -/
def Loc.held : Loc ν K → ν → Prop
  | .idle, _ | .prevLock _ _, _ => False
  | .walk _ _ _ v, p | .lock _ _ _ _ v, p | .look _ _ _ _ v, p | .lookUp _ _ _ _ v, p | .checkTop _ _ v, p
  | .check _ _ _ v, p | .lockCur _ v, p | .verify _ _ _ _ v, p | .first _ _ _ v, p | .initNew _ _ _ v, p
  | .balFirst _ _ v, p | .balTop _ _ v, p | .balDown _ _ _ v, p | .balUp _ _ _ v, p | .balStore _ _ _ _ v, p
  | .balSet _ _ v, p => v.Notes p
  | .unlinkTop x v, p | .unlinkRead x _ v, p | .unlinkStore x _ _ _ v, p | .setDeleted x v, p
  | .linkRead x _ _ v, p | .linkStore x _ _ _ v, p => v.Notes p ∨ p = x
  | .unlockTop after _ v, p => v.Notes p ∨ after.held p
  | .unlock after level _ last update, p => (∃ j, level ≤ j ∧ update j = some p ∧ some p ≠ last) ∨ after.held p
  | .unlockOne slp after, p => p = slp ∨ after.held p
  | .prevDeleted _ slp, p | .prevNext _ slp, p | .curDeleted _ slp _, p | .curLock slp _, p | .has slp, p => p = slp

/-- The thread is linking the node. -/
def Loc.linking : Loc ν K → Option (ν × Vars ν)
  | .linkRead new _ _ v | .linkStore new _ _ _ v => some (new, v)
  | _ => none

section

variable (E : Prop) (head : ν) (s : St n ν K)

def AtMost (p q : ν) : Prop := p = q ∨ Below head s p q

/-- The head, or a node that was inserted. -/
def Node (p : ν) : Prop := p = head ∨ s.stage p = .inList

/-- All links of the node were stored. -/
def Complete (p : ν) : Prop := ∀ level < maxLevels, s.valid p level = true

/-- No thread is linking the node any more. -/
def Settled (p : ν) : Prop := s.stage p = .inList ∧ ∀ t v, (s.loc t).linking ≠ some (p, v)

/-- What `update` notes: nodes before the key, one behind the other from the top level down. -/
structure Entries (key : K) (update : ℕ → Option ν) : Prop where
  lt : ∀ j p, update j = some p → j < maxLevels
  node : ∀ j p, update j = some p → Node head s p
  upto : ∀ j p, update j = some p → ∀ level ≤ j, s.valid p level = true
  low : ∀ j p, update j = some p → p = head ∨ s.key p < key
  desc : ∀ i j p q, i ≤ j → update i = some p → update j = some q → AtMost head s q p

/-- The node of an insertion belongs to the thread. -/
def Mine (t : Fin n) : Call ν K → Prop
  | .insert new key toplevel =>
    s.stage new = .given t ∧ s.key new = key ∧ new ≠ head ∧ toplevel < maxLevels
  | .balance _ newlevel => newlevel < maxLevels
  | _ => True

/-- The node that was noted last, when the levels from `level` on are done. -/
def Call.lastOf (level : ℕ) (v : Vars ν) : Call ν K → Option ν
  | .delete _ => v.last
  | _ => v.update level

/-- The calls that note a level, and the levels that they note. -/
def Call.Noting (level : ℕ) : Call ν K → Prop
  | .insert _ _ toplevel => level ≤ toplevel
  | .lookupLock _ => False
  | _ => True

/-- A search stands at `slp`, and the levels from `level` on are done. -/
structure Search (t : Fin n) (c : Call ν K) (level : ℕ) (slp : ν) (v : Vars ν) : Prop where
  entries : Entries head s c.key v.update
  mine : Mine head s t c
  node : Node head s slp
  low : slp = head ∨ s.key slp < c.key
  noting : ∀ j p, v.update j = some p → c.Noting j
  above : ∀ j p, v.update j = some p → level ≤ j ∧ AtMost head s p slp
  last : ∀ j p, v.update j = some p → ∃ q, c.lastOf level v = some q ∧ AtMost head s p q
  lastIn : ∀ q, c.lastOf level v = some q → v.Notes q
  cur : ∀ q, v.cur = some q → s.stage q = .inList

def AfterInv (t : Fin n) (P : ν → Prop) : After ν K → Prop
  | .retry c => Mine head s t c
  | .unlock x | .hold x => Node head s x ∧ ∀ p, P p → p ≠ x
  | .done => True

/-- What holds of a node that is being linked. -/
structure Linking (new : ν) (toplevel : ℕ) (v : Vars ν) : Prop where
  entries : Entries head s (s.key new) v.update
  stage : s.stage new = .inList
  ne : new ≠ head
  lt : toplevel < maxLevels
  le : ∀ j p, v.update j = some p → j ≤ toplevel
  above : ∀ level, toplevel < level → level < maxLevels → s.valid new level = true

/-- What holds of a node that a thread has found, with the nodes before it. -/
structure Found (x : ν) (v : Vars ν) : Prop where
  entries : Entries head s (s.key x) v.update
  stage : s.stage x = .inList
  complete : Complete s x

/-- What holds of a thread at a place. `E` says that every call releases what it has locked. -/
def LocInv (t : Fin n) : Loc ν K → Prop
  | .idle => True
  | .has slp => Node head s slp
  | .walk c level slp v => Search head s t c (level + 1) slp v ∧ (∀ l ≤ level, s.valid slp l = true) ∧
      level < maxLevels
  | .lock c level slp _ v => Search head s t c (level + 1) slp v ∧
      (∀ l ≤ level, s.valid slp l = true) ∧ level < maxLevels ∧ c.Noting level ∧
      some slp ≠ c.lastOf (level + 1) v
  | .look c level slp _ v | .lookUp c level slp _ v => Search head s t c level slp v ∧
      (∀ l ≤ level, s.valid slp l = true) ∧ level < maxLevels
  | .checkTop key cur v | .check key cur _ v => Entries head s key v.update ∧ s.stage cur = .inList ∧
      s.key cur = key
  | .lockCur cur v => Entries head s (s.key cur) v.update ∧ s.stage cur = .inList
  | .unlinkTop cur v | .unlinkRead cur _ v | .setDeleted cur v => Found head s cur v
  | .unlinkStore cur level slp next v => Found head s cur v ∧ v.update level = some slp ∧
      ∀ q, next = some q → s.stage q = .inList ∧ (∀ l ≤ level, s.valid q l = true) ∧ Below head s cur q ∧
        (level = 0 → Settled s q)
  | .unlockTop after _ v => (∃ key, Entries head s key v.update) ∧ AfterInv head s t v.Notes after
  | .unlock after level toplevel last update => (∃ key, Entries head s key update) ∧
      (E → ∀ j p, update j = some p → j ≤ toplevel) ∧
      (∀ q, last = some q → Node head s q ∧ ∀ j p, level ≤ j → update j = some p → AtMost head s p q) ∧
      AfterInv head s t (fun p => ∃ j, update j = some p) after
  | .unlockOne slp after => Node head s slp ∧ AfterInv head s t (fun p => p = slp) after
  | .verify new key toplevel _ v | .first new key toplevel v | .initNew new key toplevel v =>
      Entries head s key v.update ∧ Mine head s t (.insert new key toplevel) ∧
      ∀ j p, v.update j = some p → j ≤ toplevel
  | .linkRead new toplevel level v => Linking head s new toplevel v ∧ (∀ l < level, s.valid new l = true) ∧
      level ≤ toplevel + 1
  | .linkStore new toplevel level slp v => Linking head s new toplevel v ∧
      (∀ l ≤ level, s.valid new l = true) ∧ level ≤ toplevel ∧ v.update level = some slp
  | .balFirst key newlevel v => Entries head s key v.update ∧ newlevel < maxLevels
  | .balTop x newlevel v | .balSet x newlevel v | .balDown x newlevel _ v => Found head s x v ∧
      newlevel < maxLevels
  | .balUp x newlevel level v => Found head s x v ∧ newlevel < maxLevels ∧ 0 < level
  | .balStore x newlevel level slp v => Found head s x v ∧ newlevel < maxLevels ∧ 0 < level ∧
      level ≤ newlevel ∧ v.update level = some slp
  | .prevLock _ slp | .prevDeleted _ slp | .prevNext _ slp => Node head s slp ∧ s.valid slp 0 = true
  | .curDeleted _ slp cur | .curLock slp cur => Node head s slp ∧ s.stage cur = .inList ∧ Below head s slp cur

structure Inv : Prop where
  top : s.toplevel head = maxLevels - 1
  headFree : s.stage head = .free
  headValid : Complete s head
  validNode : ∀ p level, s.valid p level = true → Node head s p
  link : ∀ p level q, s.valid p level = true → s.next p level = some q →
    s.stage q = .inList ∧ (∀ l ≤ level, s.valid q l = true) ∧ Below head s p q
  complete : ∀ p, Settled s p → Complete s p
  linking : ∀ t x v, (s.loc t).linking = some (x, v) → ∀ p, s.valid p 0 = true →
    s.next p 0 = some x → v.update 0 = some p
  lock : Conc.LocksBy E Loc.held s.lock s.loc
  loc : ∀ t, LocInv E head s t (s.loc t)

end

variable {E : Prop} {head : ν} {s s' : St n ν K} {t u : Fin n} {l : Loc ν K} {p q x : ν} {key : K} {level : ℕ}
  {c : Call ν K} {v : Vars ν} {update : ℕ → Option ν} {after : After ν K}

/-! ### The order -/

theorem Below.trans (h : Below head s p q) (h' : Below head s q x) : Below head s p x := by
  refine ⟨h'.1, h.2.imp_right fun hlt => ?_⟩
  exact hlt.trans (h'.2.resolve_left h.1)

theorem Below.irrefl : ¬ Below head s p p := fun h => h.2.elim h.1 (lt_irrefl _)

theorem AtMost.below (h : AtMost head s p q) (h' : Below head s q x) : Below head s p x := by
  rcases h with rfl | h
  · exact h'
  · exact h.trans h'

theorem AtMost.trans (h : AtMost head s p q) (h' : AtMost head s q x) : AtMost head s p x := by
  rcases h' with rfl | h'
  · exact h
  · exact .inr (h.below h')

theorem AtMost.antisymm (h : AtMost head s p q) (h' : AtMost head s q p) : p = q := by
  rcases h with rfl | h
  · rfl
  · rcases h' with rfl | h'
    · rfl
    · exact absurd (h.trans h') Below.irrefl

/-- What was noted is behind what was locked, so a search that goes on locks a larger node. -/
theorem Search.order (h : Search head s t c level p v) (hne : some p ≠ c.lastOf level v)
    (hq : v.Notes q) : Below head s q p := by
  obtain ⟨j, hj⟩ := hq
  obtain ⟨r, hr, hqr⟩ := h.last j q hj
  obtain ⟨i, hi⟩ := h.lastIn r hr
  rcases (h.above i r hi).2 with rfl | hrp
  · exact absurd hr.symm hne
  · exact hqr.below hrp

theorem Entries.below (h : Entries head s key update) (hx : x ≠ head) (hkey : s.key x = key)
    (hj : update level = some p) : Below head s p x :=
  ⟨hx, (h.low level p hj).imp_right fun hlt => hkey ▸ hlt⟩

namespace Inv

variable (h : Inv E head s)
include h

theorem ne_head (hq : s.stage q = .inList) : q ≠ head := fun he => by
  rw [he, h.headFree] at hq
  cases hq

/-- **A thread waits for a lock behind those that it holds.** -/
theorem order (hE : E) (hw : (s.loc t).wants = some x) (hp : s.lock p = some t) : Below head s p x := by
  have hl := h.loc t
  have hh := h.lock.only hE t p hp
  cases hloc : s.loc t with
  | lock c level slp next v =>
    rw [hloc] at hl hh hw
    cases hw
    exact hl.1.order hl.2.2.2.2 hh
  | lockCur cur v =>
    rw [hloc] at hl hh hw
    cases hw
    obtain ⟨j, hj⟩ := hh
    exact hl.1.below (h.ne_head hl.2) rfl hj
  | prevLock key slp =>
    rw [hloc] at hh
    exact hh.elim
  | curLock slp cur =>
    rw [hloc] at hl hh hw
    cases hw
    exact hh ▸ hl.2.2
  | _ =>
    rw [hloc] at hw
    cases hw

end Inv

omit [LinearOrder K] in
theorem AfterInv.node {P : ν → Prop} (h : AfterInv head s t P after) (hp : after.held p) : Node head s p := by
  cases after with
  | unlock x | hold x => exact (show p = x from hp) ▸ h.1
  | _ => exact hp.elim

theorem Entries.notes (h : Entries head s key v.update) (hp : v.Notes p) : Node head s p := by
  obtain ⟨j, hj⟩ := hp
  exact h.node j p hj

/-- A node that is locked was inserted. -/
theorem LocInv.node (h : LocInv E head s t l) (hp : l.held p) : Node head s p := by
  cases l with
  | idle | prevLock key slp => exact hp.elim
  | has slp => exact hp ▸ h
  | walk c level slp v | lock c level slp next v | look c level slp next v | lookUp c level slp next v =>
    exact h.1.entries.notes hp
  | checkTop key cur v | check key cur level v | lockCur cur v | verify new key toplevel level v
  | first new key toplevel v | initNew new key toplevel v | balFirst key newlevel v => exact h.1.notes hp
  | unlinkTop cur v | unlinkRead cur level v | setDeleted cur v =>
    exact hp.elim (h.entries.notes ·) fun he => .inr (he ▸ h.stage)
  | unlinkStore cur level slp next v =>
    exact hp.elim (h.1.entries.notes ·) fun he => .inr (he ▸ h.1.stage)
  | unlockTop after cur v =>
    obtain ⟨⟨key, he⟩, ha⟩ := h
    exact hp.elim he.notes ha.node
  | unlock after level toplevel last update =>
    obtain ⟨⟨key, he⟩, -, -, ha⟩ := h
    rcases hp with ⟨j, -, hj, -⟩ | hp
    · exact he.node j p hj
    · exact ha.node hp
  | unlockOne slp after => exact hp.elim (fun he => he ▸ h.1) h.2.node
  | linkRead new toplevel level v | linkStore new toplevel level slp v =>
    exact hp.elim (h.1.entries.notes ·) fun he => .inr (he ▸ h.1.stage)
  | balTop x newlevel v | balDown x newlevel level v | balUp x newlevel level v
  | balStore x newlevel level slp v | balSet x newlevel v => exact h.1.entries.notes hp
  | prevDeleted key slp | prevNext key slp => exact hp ▸ h.1
  | curDeleted key slp cur | curLock slp cur => exact hp ▸ h.1

/-! ### What a step leaves as it is -/

/-- No node that was inserted gets another key, or loses a link. -/
structure Grows (s s' : St n ν K) : Prop where
  key : ∀ p, s.stage p ≠ .free → s'.key p = s.key p
  inList : ∀ p, s.stage p = .inList → s'.stage p = .inList
  valid : ∀ p level, s.valid p level = true → s'.valid p level = true
  settled : ∀ p, Settled s p → Settled s' p

section

variable (hg : Grows s s')
include hg

omit [LinearOrder K] in
theorem Grows.keyIn (hp : s.stage p = .inList) : s'.key p = s.key p := hg.key p (by rw [hp]; exact nofun)

omit [LinearOrder K] in
theorem Node.grows (hp : Node head s p) : Node head s' p := hp.imp_right (hg.inList p)

theorem Below.grows (hp : Node head s p) (hq : s.stage q = .inList) (h : Below head s p q) :
    Below head s' p q := by
  refine ⟨h.1, ?_⟩
  rcases hp with rfl | hp
  · exact .inl rfl
  · exact h.2.imp_right fun hlt => by rwa [hg.keyIn hp, hg.keyIn hq]

theorem AtMost.grows (hp : Node head s p) (hq : Node head s q) (h : AtMost head s p q) :
    AtMost head s' p q := by
  rcases h with rfl | h
  · exact .inl rfl
  · exact .inr (h.grows hg hp (hq.resolve_left h.1))

theorem low_grows (hp : Node head s p) (h : p = head ∨ s.key p < key) : p = head ∨ s'.key p < key := by
  rcases hp with rfl | hp
  · exact .inl rfl
  · exact h.imp_right fun hlt => by rwa [hg.keyIn hp]

theorem Entries.grows (h : Entries head s key update) : Entries head s' key update where
  lt := h.lt
  node j p hj := (h.node j p hj).grows hg
  upto j p hj level hl := hg.valid p level (h.upto j p hj level hl)
  low j p hj := low_grows hg (h.node j p hj) (h.low j p hj)
  desc i j p q hij hi hj := (h.desc i j p q hij hi hj).grows hg (h.node j q hj) (h.node i p hi)

theorem Found.grows (h : Found head s x v) : Found head s' x v where
  entries := by
    rw [hg.keyIn h.stage]
    exact h.entries.grows hg
  stage := hg.inList x h.stage
  complete level hl := hg.valid x level (h.complete level hl)

theorem Linking.grows {toplevel : ℕ} (h : Linking head s x toplevel v) : Linking head s' x toplevel v :=
  { h with
    entries := by
      rw [hg.keyIn h.stage]
      exact h.entries.grows hg
    stage := hg.inList x h.stage
    above := fun level h1 h2 => hg.valid x level (h.above level h1 h2) }

variable (hgiven : ∀ p, s.stage p = .given t → s'.stage p = .given t)
include hgiven

omit [LinearOrder K] in
theorem Mine.grows (h : Mine head s t c) : Mine head s' t c := by
  cases c with
  | insert new key toplevel =>
    exact ⟨hgiven new h.1, (hg.key new (by rw [h.1]; exact nofun)).trans h.2.1, h.2.2⟩
  | _ => exact h

omit [LinearOrder K] in
theorem AfterInv.grows {P : ν → Prop} (h : AfterInv head s t P after) : AfterInv head s' t P after := by
  cases after with
  | retry c => exact Mine.grows hg hgiven h
  | unlock x | hold x => exact ⟨h.1.grows hg, h.2⟩
  | done => trivial

theorem Search.grows (h : Search head s t c level p v) : Search head s' t c level p v where
  entries := h.entries.grows hg
  mine := h.mine.grows hg hgiven
  node := h.node.grows hg
  low := low_grows hg h.node h.low
  noting := h.noting
  above j q hj := (h.above j q hj).imp_right (·.grows hg (h.entries.node j q hj) h.node)
  last j q hj := by
    obtain ⟨r, hr, hqr⟩ := h.last j q hj
    obtain ⟨i, hi⟩ := h.lastIn r hr
    exact ⟨r, hr, hqr.grows hg (h.entries.node j q hj) (h.entries.node i r hi)⟩
  lastIn := h.lastIn
  cur q hq := hg.inList q (h.cur q hq)

/-- **What a thread knows stays true.** -/
theorem LocInv.grows (h : LocInv E head s t l) : LocInv E head s' t l := by
  have hup : ∀ {p m}, (∀ l ≤ m, s.valid p l = true) → ∀ l ≤ m, s'.valid p l = true :=
    fun h l hl => hg.valid _ l (h l hl)
  cases l with
  | idle => trivial
  | has slp => exact Node.grows hg h
  | walk c level slp v | look c level slp next v | lookUp c level slp next v =>
    exact ⟨h.1.grows hg hgiven, hup h.2.1, h.2.2⟩
  | lock c level slp next v => exact ⟨h.1.grows hg hgiven, hup h.2.1, h.2.2⟩
  | checkTop key cur v | check key cur level v =>
    exact ⟨h.1.grows hg, hg.inList cur h.2.1, (hg.keyIn h.2.1).trans h.2.2⟩
  | lockCur cur v => exact ⟨hg.keyIn h.2 ▸ h.1.grows hg, hg.inList cur h.2⟩
  | unlinkTop cur v | unlinkRead cur level v | setDeleted cur v => exact Found.grows hg h
  | unlinkStore cur level slp next v =>
    refine ⟨h.1.grows hg, h.2.1, fun q hq => ?_⟩
    obtain ⟨h1, h2, h3, h4⟩ := h.2.2 q hq
    exact ⟨hg.inList q h1, hup h2, h3.grows hg (.inr h.1.stage) h1, fun h0 => hg.settled q (h4 h0)⟩
  | unlockTop after cur v =>
    obtain ⟨⟨key, he⟩, ha⟩ := h
    exact ⟨⟨key, he.grows hg⟩, ha.grows hg hgiven⟩
  | unlock after level toplevel last update =>
    obtain ⟨⟨key, he⟩, h1, h2, ha⟩ := h
    refine ⟨⟨key, he.grows hg⟩, h1, fun q hq => ?_, ha.grows hg hgiven⟩
    obtain ⟨hn, hle⟩ := h2 q hq
    exact ⟨hn.grows hg, fun j p hj hp => (hle j p hj hp).grows hg (he.node j p hp) hn⟩
  | unlockOne slp after => exact ⟨h.1.grows hg, h.2.grows hg hgiven⟩
  | verify new key toplevel level v | first new key toplevel v | initNew new key toplevel v =>
    exact ⟨h.1.grows hg, h.2.1.grows hg hgiven, h.2.2⟩
  | linkRead new toplevel level v =>
    exact ⟨h.1.grows hg, fun l hl => hg.valid _ l (h.2.1 l hl), h.2.2⟩
  | linkStore new toplevel level slp v => exact ⟨h.1.grows hg, hup h.2.1, h.2.2⟩
  | balFirst key newlevel v => exact ⟨h.1.grows hg, h.2⟩
  | balTop x newlevel v | balSet x newlevel v | balDown x newlevel level v | balUp x newlevel level v
  | balStore x newlevel level slp v => exact ⟨h.1.grows hg, h.2⟩
  | prevLock key slp | prevDeleted key slp | prevNext key slp => exact ⟨h.1.grows hg, hg.valid slp 0 h.2⟩
  | curDeleted key slp cur | curLock slp cur =>
    exact ⟨h.1.grows hg, hg.inList cur h.2.1, h.2.2.grows hg h.1 h.2.1⟩

end

end Par
end Skip
end Perfbook
