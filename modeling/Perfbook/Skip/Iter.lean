/-
# The iterators of `skiplist_glock.c`

The value iterator searches for the key it is given (`valiterNext_eq`). The pointer
iterator keeps the node that it returned last, and follows the link of that node where
neither the sequence number nor a mark says that a node was deleted. A node that is not
marked is still linked, and its link is the one to the next node, whatever was inserted or
deleted in between (`ptriterNext_spec`). So each call returns what the value iterator
would, and a scan from the first node on meets all keys that are there all the time,
in ascending order (`ptriter_agrees`).

`map`, `ret` and `scan` are history: what was inserted and deleted, what the last call on
each iterator returned, and for an iterator that goes on from `skiplist_ptriter_first`,
the keys it has met and those present ever since.

Key definitions: `Iter`, `valiterNext`, `ptriterNext`, `IsNext`, `Op`, `Op.run`, `runs`, `Inv`.
Key theorems: `valiterNext_eq`, `ptriterNext_spec`, `Inv.run`, `ptriter_agrees`.
-/
import Perfbook.Skip.Descend
import Perfbook.Skip.Map

namespace Perfbook
namespace Skip

open Conc

variable {ν K : Type}

/-- `struct skiplist_iter`. -/
structure Iter (ν : Type) where
  iterSeq : ℕ
  hintp : Option ν
deriving DecidableEq

namespace Global

/-! ### The functions -/

/-- `skiplist_start_reader`: the sequence number without its lowest bit. -/
def startReader (s : Mem ν K) : ℕ := s.seq - s.seq % 2

/-- `skiplist_retry_reader`. -/
def retryReader (s : Mem ν K) (seq : ℕ) : Bool := s.seq ≠ seq

variable [DecidableEq ν] [LinearOrder K]

/-- `slp == head_slp ? NULL : slp`. -/
def notHead (headSlp slp : ν) : Option ν := if slp = headSlp then none else some slp

def valiterLast (fuel : ℕ) (s : Mem ν K) (headSlp : ν) : Option (Option ν) := do
  let slp ← descend fuel s (fun _ => true) (s.toplevel headSlp + 1) headSlp
  return notHead headSlp slp

def valiterNext (fuel : ℕ) (s : Mem ν K) (headSlp : ν) (key : K) : Option (Option ν) := do
  let slp ← descend fuel s (fun slp => s.slCmp slp key ≠ .gt) (s.toplevel headSlp + 1) headSlp
  -- once more on level 0, for what was inserted meanwhile
  let slp ← walkTo s (fun slp => s.slCmp slp key ≠ .gt) 0 fuel slp
  return s.next slp 0

def valiterPrev (fuel : ℕ) (s : Mem ν K) (headSlp : ν) (key : K) : Option (Option ν) := do
  let slp ← lookupHelp fuel s headSlp key
  return notHead headSlp slp

/-- The iterator after a call, and what the call returns. -/
def ptriterFirst (s : Mem ν K) (headSlp : ν) : Iter ν × Option ν :=
  (⟨startReader s, s.next headSlp 0⟩, s.next headSlp 0)

def ptriterLast (fuel : ℕ) (s : Mem ν K) (headSlp : ν) : Option (Iter ν × Option ν) := do
  let slp ← valiterLast fuel s headSlp
  return (⟨startReader s, slp⟩, slp)

/-- `regen_iter` in `skiplist_ptriter_next`. -/
def regenIter (fuel : ℕ) (s : Mem ν K) (headSlp : ν) (key : K) : Option (Iter ν × Option ν) := do
  let slp ← valiterNext fuel s headSlp key
  return (⟨startReader s, slp⟩, slp)

def ptriterNext (fuel : ℕ) (s : Mem ν K) (headSlp : ν) (key : K) (slip : Iter ν) : Option (Iter ν × Option ν) :=
  if retryReader s slip.iterSeq then regenIter fuel s headSlp key
  else match slip.hintp with
    | none => some (slip, none)
    | some slp =>
      if s.deleted slp then regenIter fuel s headSlp key
      else match s.next slp 0 with
        | none => some ({ slip with hintp := none }, none)
        | some slp =>
          if s.deleted slp then regenIter fuel s headSlp key
          else if retryReader s slip.iterSeq then regenIter fuel s headSlp key
          else some ({ slip with hintp := some slp }, some slp)

def ptriterPrev (fuel : ℕ) (s : Mem ν K) (headSlp : ν) (key : K) : Option (Iter ν × Option ν) := do
  let slp ← valiterPrev fuel s headSlp key
  return (⟨startReader s, slp⟩, slp)

/-! ### What they return -/

/-- The linked node with the smallest key that is greater, if there is one. -/
def IsNext (s : Mem ν K) (ns : List ν) (key : K) : Option ν → Prop
  | none => ∀ p ∈ ns, s.key p ≤ key
  | some q => q ∈ ns ∧ key < s.key q ∧ ∀ p ∈ ns, key < s.key p → s.key q ≤ s.key p

variable {s s' : Mem ν K} {head p q x : ν} {lo hi ns : List ν} {m : K → Option ν} {key : K} {fuel : ℕ}

omit [DecidableEq ν] in
theorem isNext_head (hs : (lo ++ hi).Pairwise fun p q => s.key p < s.key q) (hlo : ∀ p ∈ lo, s.key p ≤ key)
    (hhi : ∀ p ∈ hi, key < s.key p) : IsNext s (lo ++ hi) key hi.head? := by
  cases hi with
  | nil => exact fun p hp => hlo p (by simpa using hp)
  | cons q hi =>
    refine ⟨by simp, hhi q List.mem_cons_self, fun p hp hlt => ?_⟩
    rcases List.mem_append.mp hp with hp | hp
    · exact absurd hlt (not_lt.mpr (hlo p hp))
    · rcases List.mem_cons.mp hp with rfl | hp
      · exact le_rfl
      · exact ((List.pairwise_cons.mp (List.pairwise_append.mp hs).2.1).1 p hp).le

omit [DecidableEq ν] in
/-- A sorted list is cut behind a key. -/
theorem exists_split_le (hs : ns.Pairwise fun p q => s.key p < s.key q) (key : K) :
    ∃ lo hi, ns = lo ++ hi ∧ (∀ p ∈ lo, s.key p ≤ key) ∧ ∀ p ∈ hi, key < s.key p := by
  obtain ⟨lo, hi, rfl, hlo, hhi⟩ := exists_split hs key
  cases hi with
  | nil => exact ⟨lo, [], rfl, fun p hp => (hlo p hp).le, nofun⟩
  | cons q hi =>
    have hrest : ∀ p ∈ hi, key < s.key p := fun p hp =>
      (hhi q List.mem_cons_self).trans_lt ((List.pairwise_cons.mp (List.pairwise_append.mp hs).2.1).1 p hp)
    rcases (hhi q List.mem_cons_self).eq_or_lt with he | hlt
    · refine ⟨lo ++ [q], hi, by simp, fun p hp => ?_, hrest⟩
      rcases List.mem_append.mp hp with hp | hp
      · exact (hlo p hp).le
      · rw [List.mem_singleton.mp hp, ← he]
    · exact ⟨lo, q :: hi, rfl, fun p hp => (hlo p hp).le, List.forall_mem_cons.mpr ⟨hlt, hrest⟩⟩

omit [DecidableEq ν] in
/-- **`skiplist_valiter_next`** returns the first node behind the key. -/
theorem valiterNext_eq (h : Levels s head (lo ++ hi)) (hlo : ∀ p ∈ lo, s.key p ≤ key)
    (hhi : ∀ p ∈ hi, key < s.key p) (hf : lo.length < fuel) : valiterNext fuel s head key = some hi.head? := by
  have hpass : ∀ p ∈ lo, decide (s.slCmp p key ≠ .gt) = true := fun p hp =>
    decide_eq_true fun hc => absurd (compare_gt_iff_gt.mp hc) (not_lt.mpr (hlo p hp))
  have hstop : ∀ p ∈ hi, decide (s.slCmp p key ≠ .gt) = false := fun p hp =>
    decide_eq_false (not_not.mpr (compare_gt_iff_gt.mpr (hhi p hp)))
  have hnext := h.next_pred (by decide : 0 < maxLevels)
  have hlink := h.linked 0 (by decide)
  rw [onLevel_zero] at hnext hlink
  have hw : walkTo s (fun slp => s.slCmp slp key ≠ .gt) 0 fuel (pred s head lo 0) = some (pred s head lo 0) := by
    have hmid : Linked (s.next · 0) (pred s head lo 0) ([] ++ hi) := by
      rw [pred, onLevel_zero]
      exact hlink.mid
    exact walkTo_linked hmid (fun p hp => by cases hp) hstop (Nat.zero_lt_of_lt hf)
  simp only [valiterNext, h.descend_spec hpass hstop hf, Option.bind_eq_bind, Option.bind_some, hw, hnext,
    Option.pure_def]

omit [DecidableEq ν] in
theorem valiterNext_isNext (h : Levels s head ns) (key : K) (hf : ns.length < fuel) :
    ∃ r, valiterNext fuel s head key = some r ∧ IsNext s ns key r := by
  obtain ⟨lo, hi, rfl, hlo, hhi⟩ := exists_split_le h.sorted key
  rw [List.length_append] at hf
  exact ⟨_, valiterNext_eq h hlo hhi (by omega), isNext_head h.sorted hlo hhi⟩

omit [LinearOrder K] in
theorem notHead_mem (hp : notHead head (pred s head lo 0) = some p) : p ∈ lo := by
  unfold notHead at hp
  split at hp
  · cases hp
  · next hne =>
    obtain rfl := Option.some.inj hp
    exact (List.mem_cons.mp pred_mem_cons).resolve_left hne

theorem valiterPrev_mem (h : Levels s head ns) (key : K) (hf : ns.length < fuel) :
    ∃ r, valiterPrev fuel s head key = some r ∧ ∀ p, r = some p → p ∈ ns := by
  obtain ⟨lo, hi, rfl, hlo, hhi⟩ := exists_split h.sorted key
  have hlen : lo.length < fuel := by
    rw [List.length_append] at hf
    omega
  refine ⟨notHead head (pred s head lo 0), ?_, fun p hp => List.mem_append_left hi (notHead_mem hp)⟩
  simp only [valiterPrev, lookupHelp_spec h hlo hhi hlen, Option.bind_eq_bind, Option.bind_some,
    Option.pure_def]

theorem valiterLast_mem (h : Levels s head ns) (hf : ns.length < fuel) :
    ∃ r, valiterLast fuel s head = some r ∧ ∀ p, r = some p → p ∈ ns := by
  rw [← List.append_nil ns] at h
  refine ⟨notHead head (pred s head ns 0), ?_, fun p hp => notHead_mem hp⟩
  simp only [valiterLast, h.descend_spec (fun _ _ => rfl) nofun hf, Option.bind_eq_bind, Option.bind_some,
    Option.pure_def]

omit [DecidableEq ν] in
/-- **The pointer iterator.** A node that it has kept is linked, or marked. It goes on to a linked node, and with
the key of the node that it has kept, to the one that the value iterator returns. -/
theorem ptriterNext_spec (h : Levels s head ns) (key : K) (hf : ns.length < fuel) (slip : Iter ν)
    (hint : ∀ p, slip.hintp = some p → p ∈ ns ∨ s.deleted p = true) :
    ∃ slip' r, ptriterNext fuel s head key slip = some (slip', r) ∧ slip'.hintp = r ∧ (∀ q, r = some q → q ∈ ns) ∧
      ∀ p, slip.hintp = some p → s.key p = key → valiterNext fuel s head key = some r ∧ IsNext s ns key r := by
  have hregen : ∃ slip' r, regenIter fuel s head key = some (slip', r) ∧ slip'.hintp = r ∧
      (∀ q, r = some q → q ∈ ns) ∧
      ∀ p, slip.hintp = some p → s.key p = key → valiterNext fuel s head key = some r ∧ IsNext s ns key r := by
    obtain ⟨r, hr, hnext⟩ := valiterNext_isNext h key hf
    refine ⟨⟨startReader s, r⟩, r, by simp [regenIter, hr], rfl, fun q hq => ?_, fun _ _ _ => ⟨hr, hnext⟩⟩
    subst hq
    exact hnext.1
  unfold ptriterNext
  split
  · exact hregen
  · split
    next hnone => exact ⟨slip, none, rfl, hnone, nofun, fun p hp => nomatch hnone.symm.trans hp⟩
    next slp hsome =>
      split
      · exact hregen
      · next hlive =>
        -- the node is not marked, so it is linked, and its link leads to the next one
        have hmem : slp ∈ ns := (hint slp hsome).resolve_right hlive
        obtain ⟨l, l', rfl⟩ := List.append_of_mem hmem
        have hlink := h.linked 0 (by decide)
        rw [onLevel_zero] at hlink
        have hlink' : s.next slp 0 = l'.head? := (hlink.mid).2.head
        have hfollow : ∀ p, slip.hintp = some p → s.key p = key →
            valiterNext fuel s head key = some l'.head? ∧ IsNext s (l ++ slp :: l') key l'.head? := by
          intro p hp hk
          obtain rfl := Option.some.inj (hsome.symm.trans hp)
          subst hk
          have hs := List.pairwise_append.mp h.sorted
          have hle : ∀ q ∈ l ++ [slp], s.key q ≤ s.key slp := fun q hq => by
            rcases List.mem_append.mp hq with hq | hq
            · exact (hs.2.2 q hq slp List.mem_cons_self).le
            · rw [List.mem_singleton.mp hq]
          have hgt : ∀ q ∈ l', s.key slp < s.key q := (List.pairwise_cons.mp hs.2.1).1
          have h' : Levels s head ((l ++ [slp]) ++ l') := by rwa [List.append_assoc]
          have hnext := isNext_head h'.sorted hle hgt
          rw [List.append_assoc, List.singleton_append] at hnext
          refine ⟨valiterNext_eq h' hle hgt ?_, hnext⟩
          simp only [List.length_append, List.length_cons, List.length_nil] at hf ⊢
          omega
        rw [hlink']
        cases hq : l'.head? with
        | none =>
          rw [hq] at hfollow
          exact ⟨{ slip with hintp := none }, none, rfl, rfl, nofun, hfollow⟩
        | some q =>
          rw [hq] at hfollow
          have hqm : q ∈ l ++ slp :: l' :=
            List.mem_append_right _ (List.mem_cons_of_mem _ (List.mem_of_mem_head? hq))
          have hqlive : s.deleted q = false := h.live q (List.mem_cons_of_mem _ hqm)
          dsimp only
          rw [if_neg (by rw [hqlive]; exact Bool.false_ne_true)]
          exact ⟨{ slip with hintp := some q }, some q, rfl, rfl, fun _ he => Option.some.inj he ▸ hqm, hfollow⟩

/-! ### Calls one after the other -/

/-- A scan from `skiplist_ptriter_first` on: the keys it has met, those present ever since, and whether it has
come to the end. -/
structure Scan (K : Type) where
  seen : List K
  kept : K → Bool
  ended : Bool

/-- The memory and the iterators `ι`, with the history. -/
structure ISt (ι ν K : Type) where
  mem : Mem ν K
  iter : ι → Iter ν
  map : K → Option ν
  ret : ι → Option (Option ν)
  scan : ι → Option (Scan K)

/-- An insertion or a deletion, or a call on an iterator. -/
inductive Op (ι ν K : Type)
  | call (c : Call ν K)
  | first (i : ι)
  | last (i : ι)
  | next (i : ι) (key : K)
  | prev (i : ι) (key : K)

variable {ι : Type} [DecidableEq ι]

/-- A call on an iterator has returned; `scan` is the scan that it is part of. -/
def ISt.returned (s : ISt ι ν K) (i : ι) (slip : Iter ν) (r : Option ν) (scan : Option (Scan K)) : ISt ι ν K :=
  { s with
    iter := Function.update s.iter i slip
    ret := Function.update s.ret i (some r)
    scan := Function.update s.scan i scan }

/-- The scan after `skiplist_ptriter_first` has returned `r`. -/
def ISt.started (s : ISt ι ν K) (r : Option ν) : Scan K where
  seen := (r.map s.mem.key).toList
  kept k := (s.map k).isSome
  ended := r.isNone

/-- The scan after `skiplist_ptriter_next` with `key` has returned `r`: it goes on if `key` is that of the node
returned before. -/
def ISt.scanned (s : ISt ι ν K) (i : ι) (key : K) (r : Option ν) : Option (Scan K) :=
  match s.ret i with
  | some (some p) =>
    if s.mem.key p = key then
      (s.scan i).map fun sc => { sc with seen := sc.seen ++ (r.map s.mem.key).toList, ended := r.isNone }
    else none
  | _ => none

/-- A deleted key is not present any more. -/
def dropped (kept : K → Bool) : Call ν K → K → Bool
  | .insert _ _ _ => kept
  | .delete key => Function.update kept key false

/-- An insertion or a deletion has returned and left `mem`. -/
def ISt.called (s : ISt ι ν K) (mem : Mem ν K) (c : Call ν K) : ISt ι ν K :=
  { s with
    mem
    map := (c.spec s.map).1
    scan := fun i => (s.scan i).map fun sc => { sc with kept := dropped sc.kept c } }

def Op.run (fuel : ℕ) (head : ν) (s : ISt ι ν K) : Op ι ν K → Option (ISt ι ν K)
  | .call c => do
    let (mem, _) ← glock.call fuel head c s.mem
    return s.called mem c
  | .first i =>
    let (slip, r) := ptriterFirst s.mem head
    some (s.returned i slip r (some (s.started r)))
  | .last i => do
    let (slip, r) ← ptriterLast fuel s.mem head
    return s.returned i slip r none
  | .next i key => do
    let (slip, r) ← ptriterNext fuel s.mem head key (s.iter i)
    return s.returned i slip r (s.scanned i key r)
  | .prev i key => do
    let (slip, r) ← ptriterPrev fuel s.mem head key
    return s.returned i slip r none

def runs (fuel : ℕ) (head : ν) : List (Op ι ν K) → ISt ι ν K → Option (ISt ι ν K)
  | [], s => some s
  | op :: ops, s => do
    let s ← op.run fuel head s
    runs fuel head ops s

/-- A node that is inserted is not in the list, nor one that an iteration has come to, and a call to
`skiplist_ptriter_next` follows another call on the iterator. -/
def Op.Fits (head : ν) (s : ISt ι ν K) : Op ι ν K → Prop
  | .call (.insert new key level) => (Call.insert new key level).Fits head s.map ∧ ∀ i, s.ret i ≠ some (some new)
  | .next i _ => s.ret i ≠ none
  | _ => True

def FitAll (fuel : ℕ) (head : ν) : List (Op ι ν K) → ISt ι ν K → Prop
  | [], _ => True
  | op :: ops, s => op.Fits head s ∧ ∀ s', op.run fuel head s = some s' → FitAll fuel head ops s'

/-- What a scan has met: the keys in order, and all that are kept up to the node where it is. -/
structure ScanOk (s : ISt ι ν K) (i : ι) (sc : Scan K) : Prop where
  sorted : sc.seen.Pairwise (· < ·)
  kept : ∀ k, sc.kept k = true → (s.map k).isSome
  ended : sc.ended = true → s.ret i = some none ∧ ∀ k, sc.kept k = true → k ∈ sc.seen
  going : sc.ended = false → ∃ p l, s.ret i = some (some p) ∧ sc.seen = l ++ [s.mem.key p] ∧
    ∀ k, sc.kept k = true → k ≤ s.mem.key p → k ∈ sc.seen

/-- What holds between the calls. -/
structure Inv (head : ν) (ns : List ν) (s : ISt ι ν K) : Prop where
  ok : Ok s.mem head ns s.map
  hint : ∀ i r, s.ret i = some r → (s.iter i).hintp = r
  live : ∀ i p, s.ret i = some (some p) → p ∈ ns ∨ s.mem.deleted p = true
  scan : ∀ i sc, s.scan i = some sc → ScanOk s i sc

/-- An insertion or a deletion leaves the keys of the other nodes, and marks a node that it takes out. -/
theorem call_frame (c : Call ν K) (h : Ok s head ns m) (hfit : c.Fits head m) (hf : ns.length < fuel) :
    ∃ s' ns', glock.call fuel head c s = some (s', (c.spec m).2) ∧ Ok s' head ns' (c.spec m).1 ∧
      ns'.length ≤ ns.length + 1 ∧
      ∀ p, (∀ new key level, c = .insert new key level → p ≠ new) → s'.key p = s.key p ∧
        (p ∈ ns ∨ s.deleted p = true → p ∈ ns' ∨ s'.deleted p = true) := by
  cases c with
  | insert new key t =>
    obtain ⟨hne, hm, ht⟩ := hfit
    have hnew := h.notMem hne hm
    have hs : Ok (withKey s new key) head ns m := h.withKey hnew
    have hkey : (withKey s new key).key new = key := Function.update_self ..
    obtain ⟨lo, hi, rfl, hlo, ⟨hmk, hhi⟩ | ⟨x, hi, rfl, hmk, hx, hhi⟩⟩ := hs.split key
    · have hspec : (Call.insert new key t).spec m = (Function.update m key (some new), .ok) :=
        if_neg (by rw [hmk]; exact Bool.false_ne_true)
      have hlo' : ∀ p ∈ lo, (withKey s new key).key p < (withKey s new key).key new := by rwa [hkey]
      have hhi' : ∀ p ∈ hi, (withKey s new key).key new < (withKey s new key).key p := by rwa [hkey]
      have hlen : lo.length < fuel := by
        rw [List.length_append] at hf
        omega
      have hins := insert_new hs hlo' hhi' hlen ht hnew
      have hok := hs.inserted hlo' hhi' hnew ht
      rw [hkey] at hins hok
      rw [hspec]
      refine ⟨_, lo ++ new :: hi, hins, hok, by simp; omega, fun p hp => ?_⟩
      have hpn : p ≠ new := hp new key t rfl
      refine ⟨Function.update_of_ne hpn .., fun hpm => hpm.imp (fun hpm => ?_) fun hd => ?_⟩
      · simp only [List.mem_append, List.mem_cons] at hpm ⊢
        exact hpm.imp_right .inr
      · exact (Function.update_of_ne hpn ..).trans hd
    · have hspec : (Call.insert new key t).spec m = (m, .eexist) := if_pos (by rw [hmk]; rfl)
      have hle : ∀ p ∈ x :: hi, key ≤ (withKey s new key).key p :=
        List.forall_mem_cons.mpr ⟨hx.ge, fun p hp => (hhi p hp).le⟩
      have hlen : lo.length < fuel := by
        rw [List.length_append] at hf
        omega
      rw [hspec]
      exact ⟨_, _, insert_found hs hlo hle hx hlen ht, hs, Nat.le_succ _, fun p hp =>
        ⟨Function.update_of_ne (hp new key t rfl) .., id⟩⟩
  | delete key =>
    obtain ⟨lo, hi, rfl, hlo, ⟨hmk, hhi⟩ | ⟨x, hi, rfl, hmk, hx, hhi⟩⟩ := h.split key
    · have hm : Function.update m key none = m := by rw [← hmk, Function.update_eq_self]
      have hlen : lo.length < fuel := by
        rw [List.length_append] at hf
        omega
      rw [Call.spec, hmk, hm]
      exact ⟨_, _, delete_missing h hlo hhi hlen, ok_nextSeq h, Nat.le_succ _, fun p _ => ⟨rfl, id⟩⟩
    · have hlen : lo.length < fuel := by
        rw [List.length_append] at hf
        omega
      rw [Call.spec, hmk]
      refine ⟨_, lo ++ hi, delete_found h hlo hx hhi hlen, ok_nextSeq (hx ▸ h.erased), by simp; omega,
        fun p _ => ⟨rfl, fun hpm => ?_⟩⟩
      by_cases hpx : p = x
      · exact .inr (hpx ▸ Function.update_self ..)
      · refine hpm.imp (fun hpm => ?_) fun hd => (Function.update_of_ne hpx ..).trans hd
        simpa [hpx] using hpm

section

variable {s s' : ISt ι ν K} {i : ι} {slip : Iter ν} {r : Option ν} {sc : Scan K} {scan : Option (Scan K)}

omit [DecidableEq ν] [LinearOrder K] in
theorem ISt.returned_self : (s.returned i slip r scan).iter i = slip ∧ (s.returned i slip r scan).ret i = some r ∧
    (s.returned i slip r scan).scan i = scan :=
  ⟨Function.update_self .., Function.update_self .., Function.update_self ..⟩

omit [DecidableEq ν] [LinearOrder K] in
theorem ISt.returned_ne {j : ι} (hji : j ≠ i) : (s.returned i slip r scan).iter j = s.iter j ∧
    (s.returned i slip r scan).ret j = s.ret j ∧ (s.returned i slip r scan).scan j = s.scan j :=
  ⟨Function.update_of_ne hji .., Function.update_of_ne hji .., Function.update_of_ne hji ..⟩

omit [DecidableEq ν] in
/-- A call on an iterator that leaves it at a node of the list. -/
theorem Inv.returned (h : Inv head ns s) (hs : slip.hintp = r) (hr : ∀ q, r = some q → q ∈ ns)
    (hscan : ∀ sc, scan = some sc → ScanOk (s.returned i slip r scan) i sc) :
    Inv head ns (s.returned i slip r scan) := by
  obtain ⟨hiter, hret, hsc⟩ : (s.returned i slip r scan).iter i = slip ∧ (s.returned i slip r scan).ret i = some r ∧
    (s.returned i slip r scan).scan i = scan := ISt.returned_self
  refine ⟨h.ok, fun j r' hj => ?_, fun j p hj => ?_, fun j sc hj => ?_⟩
  all_goals by_cases hji : j = i
  · subst hji
    rw [hret] at hj
    rw [hiter, hs]
    exact Option.some.inj hj
  · rw [(ISt.returned_ne hji).2.1] at hj
    rw [(ISt.returned_ne hji).1]
    exact h.hint j r' hj
  · subst hji
    rw [hret] at hj
    exact .inl (hr p (Option.some.inj hj))
  · rw [(ISt.returned_ne hji).2.1] at hj
    exact h.live j p hj
  · subst hji
    rw [hsc] at hj
    exact hscan sc hj
  · rw [(ISt.returned_ne hji).2.2] at hj
    obtain ⟨h1, h2, h3, h4⟩ := h.scan j sc hj
    have hret' : (s.returned i slip r scan).ret j = s.ret j := (ISt.returned_ne hji).2.1
    exact ⟨h1, h2, fun he => hret' ▸ h3 he, fun he => hret' ▸ h4 he⟩

omit [DecidableEq ν] [DecidableEq ι] in
theorem Inv.isSome (h : Inv head ns s) {k : K} (hk : (s.map k).isSome) : ∃ p ∈ ns, s.mem.key p = k := by
  obtain ⟨p, hp⟩ := Option.isSome_iff_exists.mp hk
  exact ⟨p, (h.ok.holds k p).mp hp⟩

omit [DecidableEq ν] in
theorem Inv.first (h : Inv head ns s) : ∀ sc, some (s.started (s.mem.next head 0)) = some sc →
    ScanOk (s.returned i slip (s.mem.next head 0) scan) i sc := by
  intro sc hsc
  obtain rfl := Option.some.inj hsc
  have hlink := h.ok.linked 0 (by decide)
  rw [onLevel_zero] at hlink
  have hnext : s.mem.next head 0 = ns.head? := hlink.head
  have hret : (s.returned i slip (s.mem.next head 0) scan).ret i = some (s.mem.next head 0) := Function.update_self ..
  rw [hnext] at hret ⊢
  cases ns with
  | nil =>
    refine ⟨List.Pairwise.nil, fun _ => id, fun _ => ⟨hret, fun k hk => ?_⟩, nofun⟩
    obtain ⟨p, hp, -⟩ := h.isSome hk
    cases hp
  | cons q ns =>
    refine ⟨List.pairwise_singleton _ _, fun _ => id, nofun, fun _ => ⟨q, [], hret, rfl, fun k hk hle => ?_⟩⟩
    obtain ⟨p, hp, rfl⟩ := h.isSome hk
    rcases List.mem_cons.mp hp with rfl | hp
    · exact List.mem_cons_self
    · exact absurd hle (not_le.mpr ((List.pairwise_cons.mp h.ok.sorted).1 p hp))

omit [DecidableEq ν] in
/-- The scan goes on to the next node. -/
theorem Inv.scanned (h : Inv head ns s) {key : K}
    (hnext : ∀ p, s.ret i = some (some p) → s.mem.key p = key → IsNext s.mem ns key r) :
    ∀ sc, s.scanned i key r = some sc → ScanOk (s.returned i slip r scan) i sc := by
  intro sc hsc
  have hret : (s.returned i slip r scan).ret i = some r := Function.update_self ..
  unfold ISt.scanned at hsc
  split at hsc
  next p hp =>
    split at hsc
    next hk =>
      obtain ⟨sc₀, hsc₀, rfl⟩ := Option.map_eq_some_iff.mp hsc
      have hold := h.scan i sc₀ hsc₀
      have hgoing : sc₀.ended = false := Bool.eq_false_iff.mpr fun he => by
        have := (hold.ended he).1
        rw [hp] at this
        cases this
      obtain ⟨p', l, hp', hseen, hkept⟩ := hold.going hgoing
      obtain rfl : p = p' := Option.some.inj (Option.some.inj (hp.symm.trans hp'))
      have hle : ∀ k ∈ sc₀.seen, k ≤ key := fun k hkm => by
        have hs := hold.sorted
        rw [hseen] at hs hkm
        rcases List.mem_append.mp hkm with hkm | hkm
        · exact hk ▸ ((List.pairwise_append.mp hs).2.2 k hkm _ List.mem_cons_self).le
        · rw [List.mem_singleton.mp hkm, hk]
      have hn := hnext p hp hk
      cases r with
      | none =>
        have hsame : sc₀.seen ++ ((none : Option ν).map s.mem.key).toList = sc₀.seen := List.append_nil _
        refine ⟨by rw [hsame]; exact hold.sorted, hold.kept, fun _ => ⟨hret, fun k hkk => ?_⟩, nofun⟩
        obtain ⟨q, hq, rfl⟩ := h.isSome (hold.kept k hkk)
        rw [hsame]
        exact hkept _ hkk (hk ▸ hn q hq)
      | some q =>
        obtain ⟨hq, hlt, hmin⟩ := hn
        refine ⟨?_, hold.kept, nofun, fun _ => ⟨q, sc₀.seen, hret, rfl, fun k hkk hkq => ?_⟩⟩
        · refine List.pairwise_append.mpr ⟨hold.sorted, List.pairwise_singleton _ _, fun k hkm k' hk' => ?_⟩
          rw [List.mem_singleton.mp hk']
          exact (hle k hkm).trans_lt hlt
        · rcases le_or_gt k key with hkle | hkgt
          · exact List.mem_append_left _ (hkept k hkk (hk ▸ hkle))
          · obtain ⟨x, hx, rfl⟩ := h.isSome (hold.kept k hkk)
            have he : s.mem.key x = s.mem.key q := le_antisymm hkq (hmin x hx hkgt)
            rw [he]
            exact List.mem_append_right _ List.mem_cons_self
    next => cases hsc
  next => cases hsc

/-- An insertion or a deletion. -/
theorem Inv.call (h : Inv head ns s) (c : Call ν K) (hfit : (Op.call c : Op ι ν K).Fits head s)
    (hf : ns.length < fuel) :
    ∃ s' ns', (Op.call c).run fuel head s = some s' ∧ Inv head ns' s' ∧ ns'.length ≤ ns.length + 1 := by
  have hcfit : c.Fits head s.map := by
    cases c with
    | insert new key level => exact hfit.1
    | delete key => trivial
  have hnot : ∀ i p, s.ret i = some (some p) → ∀ new key level, c = .insert new key level → p ≠ new := by
    rintro i p hp new key level rfl rfl
    exact hfit.2 i hp
  obtain ⟨mem', ns', hrun, hok, hlen, hframe⟩ := call_frame c h.ok hcfit hf
  have hdrop : ∀ (kept : K → Bool) k, dropped kept c k = true → kept k = true := fun kept k hk => by
    cases c with
    | insert => exact hk
    | delete key =>
      by_cases hkk : k = key
      · rw [dropped, hkk, Function.update_self] at hk
        cases hk
      · rwa [dropped, Function.update_of_ne hkk] at hk
  have hmap : ∀ (kept : K → Bool) k, dropped kept c k = true → (s.map k).isSome → ((c.spec s.map).1 k).isSome := by
    intro kept k hk hs
    cases c with
    | insert new key level =>
      simp only [Call.spec]
      split
      · exact hs
      · change (Function.update s.map key (some new) k).isSome
        by_cases hkk : k = key
        · rw [hkk, Function.update_self]
          rfl
        · rwa [Function.update_of_ne hkk]
    | delete key =>
      have hkk : k ≠ key := fun he => by
        rw [dropped, he, Function.update_self] at hk
        cases hk
      change (Function.update s.map key none k).isSome
      rwa [Function.update_of_ne hkk]
  refine ⟨s.called mem' c, ns', by simp [Op.run, hrun],
    ⟨hok, h.hint, fun i p hp => (hframe p (hnot i p hp)).2 (h.live i p hp), fun i sc hsc => ?_⟩, hlen⟩
  obtain ⟨sc₀, hsc₀, rfl⟩ := Option.map_eq_some_iff.mp hsc
  have hold := h.scan i sc₀ hsc₀
  refine ⟨hold.sorted, fun k hk => hmap _ k hk (hold.kept k (hdrop _ k hk)), fun he => ?_, fun he => ?_⟩
  · exact ⟨(hold.ended he).1, fun k hk => (hold.ended he).2 k (hdrop _ k hk)⟩
  · obtain ⟨p, l, hp, hseen, hkept⟩ := hold.going he
    have hkey : (s.called mem' c).mem.key p = s.mem.key p := (hframe p (hnot i p hp)).1
    exact ⟨p, l, hp, by rw [hkey]; exact hseen, fun k hk hle => hkept k (hdrop _ k hk) (hkey ▸ hle)⟩

/-- **Every call keeps what holds between the calls.** -/
theorem Inv.run (h : Inv head ns s) (op : Op ι ν K) (hfit : op.Fits head s) (hf : ns.length < fuel) :
    ∃ s' ns', op.run fuel head s = some s' ∧ Inv head ns' s' ∧ ns'.length ≤ ns.length + 1 := by
  cases op with
  | call c => exact h.call c hfit hf
  | first i =>
    have hlink := h.ok.linked 0 (by decide)
    rw [onLevel_zero] at hlink
    refine ⟨_, ns, rfl, h.returned rfl (fun q hq => ?_) h.first, Nat.le_succ _⟩
    exact List.mem_of_mem_head? (hlink.head.symm.trans hq)
  | last i =>
    obtain ⟨r, hr, hmem⟩ := valiterLast_mem h.ok.toLevels hf
    refine ⟨s.returned i ⟨startReader s.mem, r⟩ r none, ns, ?_, h.returned rfl hmem nofun, Nat.le_succ _⟩
    simp [Op.run, ptriterLast, hr]
  | prev i key =>
    obtain ⟨r, hr, hmem⟩ := valiterPrev_mem h.ok.toLevels key hf
    refine ⟨s.returned i ⟨startReader s.mem, r⟩ r none, ns, ?_, h.returned rfl hmem nofun, Nat.le_succ _⟩
    simp [Op.run, ptriterPrev, hr]
  | next i key =>
    obtain ⟨ret, hret⟩ := Option.ne_none_iff_exists'.mp hfit
    have hhint := h.hint i ret hret
    obtain ⟨slip, r, hr, hs, hmem, hnext⟩ := ptriterNext_spec h.ok.toLevels key hf (s.iter i) fun p hp =>
      h.live i p (by rw [hret, ← hhint, hp])
    refine ⟨s.returned i slip r (s.scanned i key r), ns, ?_, h.returned hs hmem (h.scanned fun p hp hk => ?_),
      Nat.le_succ _⟩
    · simp [Op.run, hr]
    · exact (hnext p (by rw [hhint]; exact Option.some.inj (hret.symm.trans hp)) hk).2

theorem Inv.runs (h : Inv head ns s) (ops : List (Op ι ν K)) (hfit : FitAll fuel head ops s)
    (hf : ns.length + ops.length < fuel) :
    ∃ s' ns', runs fuel head ops s = some s' ∧ Inv head ns' s' ∧ ns'.length ≤ ns.length + ops.length := by
  induction ops generalizing s ns with
  | nil => exact ⟨s, ns, rfl, h, le_rfl⟩
  | cons op ops ih =>
    rw [List.length_cons] at hf
    obtain ⟨s₁, ns₁, hrun, h₁, hlen₁⟩ := h.run op hfit.1 (by omega : ns.length < fuel)
    obtain ⟨s₂, ns₂, hruns, h₂, hlen₂⟩ := ih h₁ (hfit.2 s₁ hrun) (by omega)
    refine ⟨s₂, ns₂, ?_, h₂, by rw [List.length_cons]; omega⟩
    simp only [Global.runs, hrun, hruns, Option.bind_eq_bind, Option.bind_some]

/-- **The pointer iterator agrees with the value iterator.** After any calls on a skiplist and on iterators of it,
`skiplist_ptriter_next` with the key of the node that the last call on the iterator has returned returns what
`skiplist_valiter_next` does, the linked node with the next key. A scan from the first node on has met its keys in
ascending order, and at its end all those that were present ever since. -/
theorem ptriter_agrees (h : Ok s.mem head ns s.map) (hret : ∀ i, s.ret i = none) (hscan : ∀ i, s.scan i = none)
    (ops : List (Op ι ν K)) (hfit : FitAll fuel head ops s) (hf : ns.length + ops.length < fuel) :
    ∃ s' ns', runs fuel head ops s = some s' ∧ Ok s'.mem head ns' s'.map ∧
      (∀ i p, s'.ret i = some (some p) → ∃ slip r,
        ptriterNext fuel s'.mem head (s'.mem.key p) (s'.iter i) = some (slip, r) ∧
        valiterNext fuel s'.mem head (s'.mem.key p) = some r ∧ IsNext s'.mem ns' (s'.mem.key p) r) ∧
      ∀ i sc, s'.scan i = some sc → sc.seen.Pairwise (· < ·) ∧
        (sc.ended = true → ∀ k, sc.kept k = true → k ∈ sc.seen) := by
  have h0 : Inv head ns s := {
    ok := h
    hint := fun i r hr => nomatch (hret i).symm.trans hr
    live := fun i p hp => nomatch (hret i).symm.trans hp
    scan := fun i sc hsc => nomatch (hscan i).symm.trans hsc }
  obtain ⟨s', ns', hrun, hi, hlen⟩ := h0.runs ops hfit hf
  refine ⟨s', ns', hrun, hi.ok, fun i p hp => ?_, fun i sc hsc =>
    ⟨(hi.scan i sc hsc).sorted, fun he => ((hi.scan i sc hsc).ended he).2⟩⟩
  have hhint := hi.hint i _ hp
  obtain ⟨slip, r, hr, -, -, hnext⟩ := ptriterNext_spec hi.ok.toLevels (s'.mem.key p) (by omega : ns'.length < fuel)
    (s'.iter i) fun q hq => hi.live i q (by rw [hp, ← hhint, hq])
  obtain ⟨hval, hn⟩ := hnext p hhint rfl
  exact ⟨slip, r, hr, hval, hn⟩

end

/-- A node is inserted, an iterator comes to it, and it is deleted. -/
def threeOps : List (Op Unit ℕ ℕ) := [.call (.insert 1 10 0), .first (), .call (.delete 10)]

def noIter : ISt Unit ℕ ℕ where
  mem := init blank 0
  iter _ := ⟨0, none⟩
  map _ := none
  ret _ := none
  scan _ := none

theorem ptriter_agrees_run : ∃ s' ns', runs 4 0 threeOps noIter = some s' ∧ Ok s'.mem 0 ns' s'.map ∧
    (∀ i p, s'.ret i = some (some p) → ∃ slip r,
      ptriterNext 4 s'.mem 0 (s'.mem.key p) (s'.iter i) = some (slip, r) ∧
      valiterNext 4 s'.mem 0 (s'.mem.key p) = some r ∧ IsNext s'.mem ns' (s'.mem.key p) r) ∧
    ∀ i sc, s'.scan i = some sc → sc.seen.Pairwise (· < ·) ∧
      (sc.ended = true → ∀ k, sc.kept k = true → k ∈ sc.seen) :=
  ptriter_agrees (ok_init blank 0) (fun _ => rfl) (fun _ => rfl) threeOps
    ⟨⟨⟨by decide, fun _ => nofun, by decide⟩, fun _ => nofun⟩, fun _ _ => ⟨trivial, fun _ _ =>
      ⟨trivial, fun _ _ => trivial⟩⟩⟩ (by decide)

end Global

end Skip
end Perfbook
