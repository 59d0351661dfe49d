/-
# `datastruct/hash/hash_bkt.c` and `hash_bkt_hazptr.c`: a lookup with nobody else about

Both tables have the same buckets, circular lists of elements with the hash
that each was added with. `hashtab_lookup` of `hash_bkt.c` walks over the bucket
under its lock. That of `hash_bkt_hazptr.c` protects each element with a hazard
pointer before it looks at it, and starts over when the element was deleted
under its eyes; with no update in progress that does not happen, so it
terminates.

It does not stop where the other lookup stops. Its loop goes on while
`hte_hash != hash && !ht_cmp(htep, key)`, so it returns the first element that
has the hash or the key, and not the first one with both. The two agree just
when no element of the bucket with one of them and not the other comes before
the first element with both (`Parted`).

Key definitions: `Hashtab`, `File`, `Op`, `apply`, `build`, `Scan.run`,
`bktLookup`, `Agrees`, `Parted`.
Key theorems: `Holds.add`, `Holds.del`, `run_eq_find`, `bktWalk_eq_find`,
`lookups_agree_iff`.
-/
import Mathlib.Data.List.Basic
import Perfbook.Conc.Ring

namespace Perfbook
namespace Hash
namespace Bkt

open Conc

/-- A `struct ht_elem *`: the head of a bucket, an element, or `HAZPTR_POISON`. -/
inductive Ptr (E : Type)
  | head (b : ℕ)
  | elem (e : E)
  | poison
deriving DecidableEq

variable {E K : Type}

/-- `struct hashtab`, with its elements. -/
structure Hashtab (E K : Type) where
  nbuckets : ℕ
  pos : 0 < nbuckets
  cmp : E → K → Bool
  links : Links (Ptr E)
  /-- `hte_hash` -/
  hash : E → ℕ
  /-- the elements added to a bucket and not deleted, newest first -/
  bucket : ℕ → List E

namespace Hashtab

/-- `hashtab_alloc`: all buckets are empty. -/
def alloc (nbuckets : ℕ) (pos : 0 < nbuckets) (cmp : E → K → Bool) : Hashtab E K where
  nbuckets := nbuckets
  pos := pos
  cmp := cmp
  links := ⟨id, id⟩
  hash _ := 0
  bucket _ := []

/-- `HASH2BKT`. -/
def hash2bkt (T : Hashtab E K) (hash : ℕ) : ℕ := hash % T.nbuckets

variable [DecidableEq E] (T : Hashtab E K)

/-- The element was added, and not deleted since. -/
def linked (e : E) : Bool := e ∈ T.bucket (T.hash2bkt (T.hash e))

/-- `hashtab_add`: the four stores of `cds_list_add`, which `hash_bkt_hazptr.c`
writes out. -/
def add (hash : ℕ) (e : E) : Hashtab E K :=
  { T with
    hash := Function.update T.hash e hash
    links := T.links.add (.elem e) (.head (T.hash2bkt hash))
    bucket := Function.update T.bucket (T.hash2bkt hash) (e :: T.bucket (T.hash2bkt hash)) }

/-- Unlink `e`, and leave `p` in both of its pointers. -/
def del (e : E) (p : Ptr E) : Hashtab E K :=
  { T with
    links := ⟨Function.update (T.links.del (.elem e)).next (.elem e) p,
      Function.update (T.links.del (.elem e)).prev (.elem e) p⟩
    bucket := Function.update T.bucket (T.hash2bkt (T.hash e))
      ((T.bucket (T.hash2bkt (T.hash e))).erase e) }

end Hashtab

inductive File
  | bkt
  | bktHazptr

/-- What `hashtab_del` leaves in the pointers of the element: itself, by
`cds_list_del_init`, or the poison. -/
def File.deleted (e : E) : File → Ptr E
  | .bkt => .elem e
  | .bktHazptr => .poison

/-- The calls that build a table. -/
inductive Op (E : Type)
  | add (hash : ℕ) (e : E)
  | del (e : E)

variable [DecidableEq E]

/-- One call. Its caller adds what is not in the table, and deletes what is. -/
def apply (file : File) (T : Hashtab E K) : Op E → Option (Hashtab E K)
  | .add hash e => if T.linked e then none else some (T.add hash e)
  | .del e => if T.linked e then some (T.del e (file.deleted e)) else none

def build (file : File) (T : Hashtab E K) (ops : List (Op E)) : Option (Hashtab E K) :=
  ops.foldlM (apply file) T

/-- Where `hashtab_lookup` of `hash_bkt_hazptr.c` is: `htepp` (the element whose
`hte_next` it points to), `my_hazptr` and `offset`. -/
structure Scan (E : Type) where
  htepp : Ptr E
  hazptr : Bool → Option E
  offset : Bool

/-- The loop from `retry` on. An element of another bucket's head is nothing that
the loop could look at. -/
def Scan.run (T : Hashtab E K) (hash : ℕ) (key : K) : ℕ → Scan E → Option (Scan E × Option E)
  | 0, _ => none
  | fuel + 1, w =>
    let htepHead := Ptr.head (T.hash2bkt hash)
    let htep := T.links.next w.htepp
    if htep = htepHead then some (w, none)
    else
      match htep with
      -- `goto retry`: the element was deleted
      | .poison => run T hash key fuel { w with htepp := htepHead }
      | .elem e =>
        let w := { w with
          hazptr := Function.update w.hazptr w.offset (some e)
          offset := !w.offset }
        -- recheck the hazard pointer against the original
        if T.links.next w.htepp ≠ htep then run T hash key fuel { w with htepp := htepHead }
        else if T.hash e ≠ hash ∧ ¬ T.cmp e key then run T hash key fuel { w with htepp := .elem e }
        else some ({ w with htepp := .elem e }, some e)
      | .head _ => none

/-- `hashtab_lookup` of `hash_bkt_hazptr.c`. -/
def hazptrLookup (T : Hashtab E K) (hash : ℕ) (key : K) (hazptr : Bool → Option E) (fuel : ℕ) :
    Option (Option E) :=
  (Scan.run T hash key fuel ⟨.head (T.hash2bkt hash), hazptr, false⟩).map Prod.snd

/-- `cds_list_for_each_entry` in `hashtab_lookup` of `hash_bkt.c`, at `htep`. -/
def bktWalk (T : Hashtab E K) (hash : ℕ) (key : K) : ℕ → Ptr E → Option (Option E)
  | 0, _ => none
  | fuel + 1, htep =>
    if htep = .head (T.hash2bkt hash) then some none
    else
      match htep with
      | .elem e =>
        if T.hash e ≠ hash then bktWalk T hash key fuel (T.links.next htep)
        else if T.cmp e key then some (some e)
        else bktWalk T hash key fuel (T.links.next htep)
      | _ => none

/-- `hashtab_lookup` of `hash_bkt.c`. -/
def bktLookup (T : Hashtab E K) (hash : ℕ) (key : K) (fuel : ℕ) : Option (Option E) :=
  bktWalk T hash key fuel (T.links.next (.head (T.hash2bkt hash)))

/-! ### The lists of a table that was built -/

/-- The buckets are the lists of what was added and not deleted. -/
structure Holds (T : Hashtab E K) : Prop where
  ring : ∀ b, Ring Ptr.elem (.head b) T.links (T.bucket b)
  mem : ∀ b, ∀ e ∈ T.bucket b, T.hash2bkt (T.hash e) = b

variable {T T' : Hashtab E K} {e : E} {hash b : ℕ} {key : K} {ops : List (Op E)}

omit [DecidableEq E] in
theorem elem_injective : Function.Injective (Ptr.elem : E → Ptr E) := fun _ _ h => Ptr.elem.inj h

omit [DecidableEq E] in
theorem Holds.alloc {pos : 0 < b} {cmp : E → K → Bool} : Holds (Hashtab.alloc b pos cmp) where
  ring _ := Ring.nil rfl rfl
  mem _ _ h := absurd h List.not_mem_nil

/-- An element that is not linked is in no bucket. -/
theorem Holds.not_mem (h : Holds T) (he : T.linked e = false) (b : ℕ) : e ∉ T.bucket b := fun hb => by
  have := h.mem b e hb
  rw [Hashtab.linked, decide_eq_false_iff_not, this] at he
  exact he hb

theorem Holds.add (h : Holds T) (he : T.linked e = false) : Holds (T.add hash e) where
  ring b := by
    have hb := h.ring (T.hash2bkt hash)
    have hne := h.not_mem he
    rw [Hashtab.add]
    dsimp only
    by_cases hbb : b = T.hash2bkt hash
    · subst hbb
      rw [Function.update_self]
      exact Ring.add elem_injective (fun _ => nofun) hb (hne _)
    · rw [Function.update_of_ne hbb]
      refine (h.ring b).congr (hb.add_frame ?_ nofun fun _ _ => nofun) fun a ha =>
        hb.add_frame nofun ?_ fun x hx => ?_
      · simpa using hbb
      · rintro ⟨⟩
        exact hne b ha
      · rintro ⟨⟩
        exact hbb ((h.mem b a ha).symm.trans (h.mem _ a hx))
  mem b a ha := by
    rw [Hashtab.add] at ha ⊢
    dsimp only [Hashtab.hash2bkt] at ha ⊢
    by_cases hae : a = e
    · subst hae
      rw [Function.update_self]
      by_contra hbb
      rw [Function.update_of_ne (Ne.symm hbb)] at ha
      exact h.not_mem he b ha
    · rw [Function.update_of_ne hae]
      by_cases hbb : b = hash % T.nbuckets
      · subst hbb
        rw [Function.update_self, List.mem_cons, or_iff_right hae] at ha
        exact h.mem _ a ha
      · rw [Function.update_of_ne hbb] at ha
        exact h.mem b a ha

theorem del_links {p c : Ptr E} (hc : c ≠ .elem e) :
    (T.del e p).links.next c = (T.links.del (.elem e)).next c ∧
      (T.del e p).links.prev c = (T.links.del (.elem e)).prev c := by
  simp [Hashtab.del, hc]

theorem Holds.del (h : Holds T) (he : T.linked e = true) {p : Ptr E} : Holds (T.del e p) where
  ring b := by
    have hb := h.ring (T.hash2bkt (T.hash e))
    rw [Hashtab.linked, decide_eq_true_iff] at he
    -- what is stored to the pointers of `e` is seen in no bucket that does not hold it
    have hcut : ∀ l : List E, e ∉ l → Ring Ptr.elem (.head b) (T.links.del (.elem e)) l →
        Ring Ptr.elem (.head b) (T.del e p).links l := fun l hl hr =>
      hr.congr (del_links nofun) fun a ha => del_links fun hx => hl (elem_injective hx ▸ ha)
    by_cases hbb : b = T.hash2bkt (T.hash e)
    · subst hbb
      obtain ⟨l₁, l₂, heq⟩ := List.append_of_mem he
      have hnd := hb.nodup
      rw [heq] at hb hnd
      have hl : e ∉ l₁ ++ l₂ := (List.nodup_middle.mp hnd).notMem
      have herase : (T.del e p).bucket (T.hash2bkt (T.hash e)) = l₁ ++ l₂ := by
        rw [Hashtab.del]
        dsimp only
        rw [Function.update_self, heq, List.erase_append_right _ fun hx => hl (by simp [hx]),
          List.erase_cons_head]
      rw [herase]
      exact hcut _ hl (Ring.del elem_injective (fun _ => nofun) hb)
    · have hne : e ∉ T.bucket b := fun hx => hbb (h.mem b e hx).symm
      have hbucket : (T.del e p).bucket b = T.bucket b := Function.update_of_ne hbb _ _
      rw [hbucket]
      refine hcut _ hne ((h.ring b).congr (hb.del_frame he ?_ fun _ _ => nofun) fun a ha =>
        hb.del_frame he nofun fun x hx => ?_)
      · simpa using hbb
      · rintro ⟨⟩
        exact hbb ((h.mem b a ha).symm.trans (h.mem _ a hx))
  mem b a ha := by
    rw [Hashtab.del] at ha
    dsimp only at ha
    by_cases hbb : b = T.hash2bkt (T.hash e)
    · subst hbb
      rw [Function.update_self] at ha
      exact h.mem _ a (List.mem_of_mem_erase ha)
    · rw [Function.update_of_ne hbb] at ha
      exact h.mem b a ha

theorem Holds.apply {file : File} {op : Op E} (h : Holds T) (hn : apply file T op = some T') :
    Holds T' := by
  cases op with
  | add hash e =>
    rw [Bkt.apply, Option.ite_none_left_eq_some] at hn
    exact Option.some.inj hn.2 ▸ h.add (Bool.eq_false_iff.mpr hn.1)
  | del e =>
    rw [Bkt.apply, Option.ite_none_right_eq_some] at hn
    exact Option.some.inj hn.2 ▸ h.del hn.1

/-- **Every table that was built holds its lists.** -/
theorem Holds.build {file : File} (h : Holds T) (hn : build file T ops = some T') : Holds T' := by
  induction ops generalizing T with
  | nil => exact Option.some.inj hn ▸ h
  | cons op ops ih =>
    rw [Bkt.build, List.foldlM_cons] at hn
    obtain ⟨T₁, h1, h2⟩ := Option.bind_eq_some_iff.mp hn
    exact ih (h.apply h1) h2

/-- Two tables with the same contents. -/
structure Same (T T' : Hashtab E K) : Prop where
  nbuckets : T'.nbuckets = T.nbuckets
  cmp : T'.cmp = T.cmp
  hash : T'.hash = T.hash
  bucket : T'.bucket = T.bucket

omit [DecidableEq E] in
theorem Same.hash2bkt (h : Same T T') (x : ℕ) : T'.hash2bkt x = T.hash2bkt x := by
  rw [Hashtab.hash2bkt, h.nbuckets, Hashtab.hash2bkt]

/-- The same call takes both files to the same contents. -/
theorem Same.apply {file file' : File} {op : Op E} {T₁ T₁' : Hashtab E K} (h : Same T T')
    (hn : apply file T op = some T₁) (hn' : apply file' T' op = some T₁') : Same T₁ T₁' := by
  cases op with
  | add hash e =>
    rw [Bkt.apply, Option.ite_none_left_eq_some] at hn hn'
    obtain rfl := Option.some.inj hn.2
    obtain rfl := Option.some.inj hn'.2
    refine ⟨h.nbuckets, h.cmp, ?_, ?_⟩
    · simp only [Hashtab.add, h.hash]
    · simp only [Hashtab.add, h.bucket, h.hash2bkt]
  | del e =>
    rw [Bkt.apply, Option.ite_none_right_eq_some] at hn hn'
    obtain rfl := Option.some.inj hn.2
    obtain rfl := Option.some.inj hn'.2
    refine ⟨h.nbuckets, h.cmp, h.hash, ?_⟩
    simp only [Hashtab.del, h.bucket, h.hash, h.hash2bkt]

theorem Same.build {file file' : File} {T₁ T₁' : Hashtab E K} (h : Same T T')
    (hn : build file T ops = some T₁) (hn' : build file' T' ops = some T₁') : Same T₁ T₁' := by
  induction ops generalizing T T' with
  | nil => exact Option.some.inj hn ▸ Option.some.inj hn' ▸ h
  | cons op ops ih =>
    rw [Bkt.build, List.foldlM_cons] at hn hn'
    obtain ⟨U, h1, h2⟩ := Option.bind_eq_some_iff.mp hn
    obtain ⟨U', h1', h2'⟩ := Option.bind_eq_some_iff.mp hn'
    exact ih (h.apply h1 h1') h2 h2'

/-! ### What the lookups return -/

/-- With enough fuel, `f` returns `x`. -/
def Returns {α : Type} (f : ℕ → Option α) (x : α) : Prop := ∃ N, ∀ fuel, N ≤ fuel → f fuel = some x

theorem Returns.unique {α : Type} {f : ℕ → Option α} {x y : α} (hx : Returns f x)
    (hy : Returns f y) : x = y := by
  obtain ⟨N, hN⟩ := hx
  obtain ⟨M, hM⟩ := hy
  exact Option.some.inj ((hN _ (Nat.le_max_left N M)).symm.trans (hM _ (Nat.le_max_right N M)))

/-- The element was added with this hash. -/
def Hashtab.hasHash (T : Hashtab E K) (hash : ℕ) (e : E) : Bool := T.hash e = hash

/-- Where the loop of `hash_bkt_hazptr.c` stops. -/
def Hashtab.stops (T : Hashtab E K) (hash : ℕ) (key : K) (e : E) : Bool :=
  T.hasHash hash e || T.cmp e key

/-- The element that is looked up. -/
def Hashtab.matches (T : Hashtab E K) (hash : ℕ) (key : K) (e : E) : Bool :=
  T.hasHash hash e && T.cmp e key

/-- The loop, from the last element of `l₁` on: nothing makes it start over. -/
theorem run_eq_find {l₁ l₂ : List E} {w : Scan E} {fuel : ℕ}
    (hr : Ring Ptr.elem (.head (T.hash2bkt hash)) T.links (l₁ ++ l₂))
    (hw : w.htepp = last Ptr.elem (.head (T.hash2bkt hash)) l₁) (hfuel : l₂.length < fuel) :
    (Scan.run T hash key fuel w).map Prod.snd = some (l₂.find? (T.stops hash key)) := by
  induction l₂ generalizing l₁ w fuel with
  | nil =>
    obtain ⟨fuel, rfl⟩ := Nat.exists_eq_succ_of_ne_zero (Nat.ne_of_gt hfuel)
    have hnext := (hr.link l₁ [] rfl).1
    rw [Scan.run, hw, hnext]
    simp
  | cons e l ih =>
    obtain ⟨fuel, rfl⟩ := Nat.exists_eq_succ_of_ne_zero (Nat.ne_of_gt (Nat.zero_lt_of_lt hfuel))
    have hnext := (hr.link l₁ (e :: l) rfl).1
    rw [first_cons] at hnext
    rw [Scan.run, hw, hnext]
    simp only [reduceCtorEq, if_false, hnext, ne_eq, not_true_eq_false]
    by_cases hstop : T.hash e = hash ∨ T.cmp e key = true
    · have hfind : T.stops hash key e = true := by
        simpa [Hashtab.stops, Hashtab.hasHash] using hstop
      rw [if_neg (by tauto), List.find?_cons_of_pos hfind]
      rfl
    · have hfind : ¬ T.stops hash key e = true := by
        simpa [Hashtab.stops, Hashtab.hasHash] using hstop
      rw [if_pos (by tauto), List.find?_cons_of_neg hfind]
      have hr' : Ring Ptr.elem (.head (T.hash2bkt hash)) T.links ((l₁ ++ [e]) ++ l) := by
        simpa using hr
      exact ih hr' (by simp) (Nat.lt_of_succ_lt_succ hfuel)

theorem bktWalk_eq_find {l₁ l₂ : List E} {fuel : ℕ}
    (hr : Ring Ptr.elem (.head (T.hash2bkt hash)) T.links (l₁ ++ l₂)) (hfuel : l₂.length < fuel) :
    bktWalk T hash key fuel (first Ptr.elem (.head (T.hash2bkt hash)) l₂) =
      some (l₂.find? (T.matches hash key)) := by
  induction l₂ generalizing l₁ fuel with
  | nil =>
    obtain ⟨fuel, rfl⟩ := Nat.exists_eq_succ_of_ne_zero (Nat.ne_of_gt hfuel)
    unfold bktWalk
    rw [first_nil, if_pos rfl, List.find?_nil]
  | cons e l ih =>
    obtain ⟨fuel, rfl⟩ := Nat.exists_eq_succ_of_ne_zero (Nat.ne_of_gt (Nat.zero_lt_of_lt hfuel))
    have hnext : T.links.next (.elem e) = _ := hr.next_mem
    have hr' : Ring Ptr.elem (.head (T.hash2bkt hash)) T.links ((l₁ ++ [e]) ++ l) := by
      simpa using hr
    have ih := ih hr' (Nat.lt_of_succ_lt_succ hfuel)
    unfold bktWalk
    rw [first_cons, if_neg nofun]
    dsimp only
    rw [hnext, ih, List.find?_cons]
    by_cases hh : T.hash e = hash <;> cases hc : T.cmp e key <;>
      simp [Hashtab.matches, Hashtab.hasHash, hh, hc]

/-- **The lookup with hazard pointers** returns the first element that has the
hash or the key. -/
theorem hazptrLookup_returns (h : Holds T) (hash : ℕ) (key : K) (hazptr : Bool → Option E) :
    Returns (hazptrLookup T hash key hazptr)
      ((T.bucket (T.hash2bkt hash)).find? (T.stops hash key)) := by
  have hr : Ring Ptr.elem (.head (T.hash2bkt hash)) T.links ([] ++ T.bucket (T.hash2bkt hash)) :=
    h.ring _
  exact ⟨(T.bucket (T.hash2bkt hash)).length + 1, fun _ hfuel =>
    run_eq_find hr rfl (Nat.lt_of_succ_le hfuel)⟩

/-- **The lookup under the lock** returns the first element that has both. -/
theorem bktLookup_returns (h : Holds T) (hash : ℕ) (key : K) : Returns (bktLookup T hash key)
    ((T.bucket (T.hash2bkt hash)).find? (T.matches hash key)) := by
  have hr : Ring Ptr.elem (.head (T.hash2bkt hash)) T.links ([] ++ T.bucket (T.hash2bkt hash)) :=
    h.ring _
  refine ⟨(T.bucket (T.hash2bkt hash)).length + 1, fun fuel hfuel => ?_⟩
  rw [bktLookup, (h.ring _).next_head]
  exact bktWalk_eq_find hr (Nat.lt_of_succ_le hfuel)

/-! ### Where they agree -/

/-- The lookup in `T` terminates, returns an element of the bucket with this
hash and key, or `NULL` if there is none, and so does the other one in `T'`,
with the same result. -/
def Agrees (T T' : Hashtab E K) (hash : ℕ) (key : K) (hazptr : Bool → Option E) : Prop :=
  ∃ r, Returns (hazptrLookup T hash key hazptr) r ∧
    (∀ e, r = some e → e ∈ T.bucket (T.hash2bkt hash) ∧ T.hash e = hash ∧ T.cmp e key = true) ∧
    (r = none → ∀ e ∈ T.bucket (T.hash2bkt hash), ¬ (T.hash e = hash ∧ T.cmp e key = true)) ∧
    Returns (bktLookup T' hash key) r

/-- An element of the bucket with the hash or the key, but not both, comes
after one with both. -/
def Parted (T : Hashtab E K) (hash : ℕ) (key : K) : Prop :=
  ∀ l₁ e l₂, T.bucket (T.hash2bkt hash) = l₁ ++ e :: l₂ → T.hasHash hash e ≠ T.cmp e key →
    ∃ e' ∈ l₁, T.hash e' = hash ∧ T.cmp e' key = true

omit [DecidableEq E] in
theorem matches_iff : T.matches hash key e = true ↔ T.hash e = hash ∧ T.cmp e key = true := by
  simp [Hashtab.matches, Hashtab.hasHash]

omit [DecidableEq E] in
theorem stops_of_matches (h : T.matches hash key e = true) : T.stops hash key e = true := by
  rw [matches_iff] at h
  simp [Hashtab.stops, h.2]

omit [DecidableEq E] in
/-- Parted buckets have the same first element for both lookups. -/
theorem find_eq_of_parted (h : Parted T hash key) :
    (T.bucket (T.hash2bkt hash)).find? (T.stops hash key) =
      (T.bucket (T.hash2bkt hash)).find? (T.matches hash key) := by
  cases hf : (T.bucket (T.hash2bkt hash)).find? (T.stops hash key) with
  | none =>
    rw [List.find?_eq_none] at hf
    exact (List.find?_eq_none.mpr fun e he hm => hf e he (stops_of_matches hm)).symm
  | some e =>
    obtain ⟨hstop, l₁, l₂, heq, hbefore⟩ := List.find?_eq_some_iff_append.mp hf
    have hnone : ∀ a ∈ l₁, ¬ T.matches hash key a = true := fun a ha hm => by
      have := hbefore a ha
      rw [stops_of_matches hm] at this
      cases this
    have hmatch : T.matches hash key e = true := by
      by_contra hm
      obtain ⟨e', he', hboth⟩ := h l₁ e l₂ heq fun hx => hm <| by
        rw [Hashtab.stops, hx, Bool.or_self] at hstop
        rw [Hashtab.matches, hx, Bool.and_self, hstop]
      exact hnone e' he' (matches_iff.mpr hboth)
    exact (List.find?_eq_some_iff_append.mpr ⟨hmatch, l₁, l₂, heq, fun a ha => by
      simpa using hnone a ha⟩).symm

/-- **The lookups agree on parted buckets, and on no others.** -/
theorem lookups_agree_iff {nbuckets : ℕ} {pos : 0 < nbuckets} {cmp : E → K → Bool}
    (h : build .bktHazptr (.alloc nbuckets pos cmp) ops = some T)
    (h' : build .bkt (.alloc nbuckets pos cmp) ops = some T') (hash : ℕ) (key : K)
    (hazptr : Bool → Option E) : Agrees T T' hash key hazptr ↔ Parted T hash key := by
  have hT : Holds T := Holds.alloc.build h
  have hT' : Holds T' := Holds.alloc.build h'
  have hsame : Same T T' := Same.build ⟨rfl, rfl, rfl, rfl⟩ h h'
  have hret := hazptrLookup_returns hT hash key hazptr
  have hret' : Returns (bktLookup T' hash key)
      ((T.bucket (T.hash2bkt hash)).find? (T.matches hash key)) := by
    have hx := bktLookup_returns hT' hash key
    have hm : T'.matches hash key = T.matches hash key := by
      funext e
      rw [Hashtab.matches, Hashtab.hasHash, hsame.hash, hsame.cmp]
      rfl
    rwa [hsame.bucket, hsame.hash2bkt, hm] at hx
  constructor
  · rintro ⟨r, h1, h2, h3, -⟩ l₁ e l₂ heq hne
    obtain rfl := h1.unique hret
    have hstop : T.stops hash key e = true := by
      rw [Hashtab.stops]
      cases hx : T.hasHash hash e <;> cases hy : T.cmp e key <;> simp_all
    cases hf : (T.bucket (T.hash2bkt hash)).find? (T.stops hash key) with
    | none =>
      rw [List.find?_eq_none] at hf
      exact absurd hstop (hf e (heq ▸ by simp))
    | some e' =>
      obtain ⟨-, hh, hc⟩ := h2 e' hf
      rw [heq, List.find?_append] at hf
      cases hf₁ : l₁.find? (T.stops hash key) with
      | some a =>
        rw [hf₁, Option.some_or, Option.some.injEq] at hf
        exact ⟨e', hf ▸ List.mem_of_find?_eq_some hf₁, hh, hc⟩
      | none =>
        rw [hf₁, Option.none_or, List.find?_cons_of_pos hstop, Option.some.injEq] at hf
        subst hf
        exact absurd (by rw [Hashtab.hasHash, hh, hc, decide_eq_true rfl]) hne
  · intro hp
    rw [find_eq_of_parted hp] at hret
    refine ⟨_, hret, fun e he => ?_, fun he e hmem hm => ?_, hret'⟩
    · have hm := matches_iff.mp (List.find?_some he)
      exact ⟨List.mem_of_find?_eq_some he, hm.1, hm.2⟩
    · exact List.find?_eq_none.mp he e hmem (matches_iff.mpr hm)

/-- One bucket, and one element with hash 1 and key 10. -/
def oneElement (file : File) : Option (Hashtab ℕ ℕ) :=
  build file (.alloc 1 Nat.one_pos (· == ·)) [.add 1 10]

/-- With hash 1, looking up key 10 is all right. -/
theorem lookups_agree_iff_one : ∃ T T', oneElement .bktHazptr = some T ∧
    oneElement .bkt = some T' ∧ Agrees T T' 1 10 fun _ => none := by
  have h : ∀ file, build file (.alloc 1 Nat.one_pos (· == ·)) [.add 1 10] = oneElement file :=
    fun _ => rfl
  refine ⟨_, _, rfl, rfl, (lookups_agree_iff (h _) (h _) 1 10 _).mpr ?_⟩
  intro l₁ e l₂ heq hne
  have he : e = 10 := by
    have : e ∈ [10] := by
      rw [show [10] = l₁ ++ e :: l₂ from heq]
      simp
    simpa using this
  subst he
  exact absurd rfl hne

/-- Key 20 is not in the table, and the lookup returns the element with key 10. -/
theorem lookup_other_key : ∃ T T', oneElement .bktHazptr = some T ∧ oneElement .bkt = some T' ∧
    hazptrLookup T 1 20 (fun _ => none) 1 = some (some 10) ∧ bktLookup T' 1 20 2 = some none ∧
    ¬ Agrees T T' 1 20 fun _ => none := by
  refine ⟨_, _, rfl, rfl, rfl, rfl, ?_⟩
  rintro ⟨r, ⟨N, hN⟩, h2, -⟩
  obtain rfl : some 10 = r := Option.some.inj (hN (N + 1) (Nat.le_succ N))
  exact absurd (h2 10 rfl).2.2 nofun

end Bkt
end Hash
end Perfbook
