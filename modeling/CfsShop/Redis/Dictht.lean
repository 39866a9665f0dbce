/-
One table of a dictionary: that each entry is in the bucket its hash sends it
to, and what the operations on a bucket do to the entries of the table.
-/
import CfsShop.Redis.Dict

namespace Redis

variable {κ ν : Type}

/-! ## One table -/

namespace Dictht

/-- The entries of the table. -/
def entries (t : Dictht κ ν) : List (κ × ν) := t.table.flatten

/-- Each entry is in the bucket its hash sends it to, and `used` counts them. -/
structure Wf (hash : κ → BitVec 64) (t : Dictht κ ν) : Prop where
  used : t.used = t.entries.length
  placed : Buckets.Placed (fun e => t.index (hash e.1)) t.table

/-- A table that was allocated: its size is a power of two that fits `unsigned long`. -/
def Sized (t : Dictht κ ν) : Prop := ∃ k, k ≤ 63 ∧ t.size = 2 ^ k

variable {hash : κ → BitVec 64} {t t' : Dictht κ ν}

theorem index_congr (h : t.size = t'.size) (x : BitVec 64) : t.index x = t'.index x := by
  rw [index, index, sizemask, sizemask, h]

theorem sizemask_eq {k : Nat} (h : t.size = 2 ^ k) : t.sizemask = Cursor.mask 64 k := by
  rw [sizemask, Cursor.mask, h]

theorem index_eq {k : Nat} (hk : k ≤ 63) (h : t.size = 2 ^ k) (x : BitVec 64) :
    t.index x = x.toNat % 2 ^ k := by
  rw [index, sizemask_eq h, Cursor.toNat_and_mask x (by omega)]

theorem Sized.index_lt (h : t.Sized) (x : BitVec 64) : t.index x < t.size := by
  obtain ⟨k, hk, hsize⟩ := h
  rw [index_eq hk hsize, hsize]
  exact Nat.mod_lt _ (Nat.two_pow_pos k)

theorem Sized.pos (h : t.Sized) : 0 < t.size := by
  obtain ⟨k, -, hsize⟩ := h
  rw [hsize]
  exact Nat.two_pow_pos k

theorem Sized.getElem?_index (h : t.Sized) (x : BitVec 64) :
    t.table[t.index x]? = some (t.chain (t.index x)) := by
  have hlt : t.index x < t.table.length := h.index_lt x
  rw [chain, List.getElem?_eq_getElem hlt, Option.getD_some]

theorem wf_reset : (dictReset : Dictht κ ν).Wf hash := ⟨rfl, Buckets.Placed.nil⟩

theorem wf_alloc (n : Nat) : (dictAlloc n : Dictht κ ν).Wf hash :=
  ⟨by simp [dictAlloc, entries], Buckets.Placed.replicate_nil n⟩

@[simp] theorem entries_reset : (dictReset : Dictht κ ν).entries = [] := rfl

@[simp] theorem entries_alloc (n : Nat) : (dictAlloc n : Dictht κ ν).entries = [] :=
  Buckets.flatten_replicate_nil n

@[simp] theorem size_alloc (n : Nat) : (dictAlloc n : Dictht κ ν).size = n := by
  simp [dictAlloc, size]

theorem Wf.eq_reset (h : t.Wf hash) (hz : t.size = 0) : t = dictReset := by
  obtain ⟨table, used⟩ := t
  obtain rfl : table = [] := List.eq_nil_of_length_eq_zero hz
  obtain rfl : used = 0 := h.used
  rfl

/-- Another chain in a chain's place. -/
theorem Wf.set (h : t.Wf hash) {i : Nat} {c : List (κ × ν)} {n : Nat}
    (hc : ∀ e ∈ c, t.index (hash e.1) = i) (hn : n = (t.table.set i c).flatten.length) :
    Wf hash ⟨t.table.set i c, n⟩ := by
  refine ⟨hn, ?_⟩
  have hplaced := h.placed.set hc
  have hsize : t.size = size ⟨t.table.set i c, n⟩ := (List.length_set ..).symm
  intro j b hb e he
  exact (index_congr hsize _).symm.trans (hplaced j b hb e he)

theorem Wf.chain_placed (h : t.Wf hash) (i : Nat) : ∀ e ∈ t.chain i, t.index (hash e.1) = i := by
  intro e he
  cases hb : t.table[i]? with
  | none => simp [chain, hb] at he
  | some b =>
    rw [chain, hb, Option.getD_some] at he
    exact h.placed i b hb e he

/-- Looking in one bucket is enough. -/
theorem Wf.mem_chain_iff (h : t.Wf hash) (e : κ × ν) :
    e ∈ t.chain (t.index (hash e.1)) ↔ e ∈ t.entries := by
  rw [entries, h.placed.mem_flatten_iff, chain]
  cases t.table[t.index (hash e.1)]? <;> simp

/-! ### Inserting -/

theorem size_insertAt (i : Nat) (e : κ × ν) : (t.insertAt i e).size = t.size :=
  List.length_set ..

theorem Sized.insertAt (h : t.Sized) (i : Nat) (e : κ × ν) : (t.insertAt i e).Sized := by
  rw [Sized, size_insertAt]
  exact h

theorem Sized.entries_insertAt (h : t.Sized) (e : κ × ν) :
    (e :: t.entries).Perm (t.insertAt (t.index (hash e.1)) e).entries :=
  Buckets.flatten_set_of_perm (x := [e]) (y := []) (h.getElem?_index _) (List.Perm.refl _)

theorem Wf.insertAt (h : t.Wf hash) (hs : t.Sized) (e : κ × ν) :
    (t.insertAt (t.index (hash e.1)) e).Wf hash := by
  refine h.set ?_ ?_
  · rw [List.forall_mem_cons]
    exact ⟨rfl, h.chain_placed _⟩
  · have hperm : (e :: t.entries).Perm (t.insertAt (t.index (hash e.1)) e).entries :=
      hs.entries_insertAt e
    have hlen := hperm.length_eq
    rw [List.length_cons, ← h.used] at hlen
    exact hlen

/-! ### Looking up -/

section
variable [DecidableEq κ]

theorem Wf.of_findIn (h : t.Wf hash) {key : κ} {e : κ × ν} (hf : t.findIn (hash key) key = some e) :
    e ∈ t.entries ∧ e.1 = key := by
  have hkey : e.1 = key := by simpa using List.find?_some hf
  refine ⟨?_, hkey⟩
  subst hkey
  exact (h.mem_chain_iff e).1 (List.mem_of_find?_eq_some hf)

theorem Wf.not_mem_of_findIn (h : t.Wf hash) {key : κ} (hf : t.findIn (hash key) key = none) :
    ∀ e ∈ t.entries, e.1 ≠ key := by
  intro e he hkey
  subst hkey
  have hnone := List.find?_eq_none.1 hf e ((h.mem_chain_iff e).2 he)
  exact hnone (by simp)

/-! ### Unlinking -/

theorem size_unlink (h : BitVec 64) (key : κ) : (t.unlink h key).size = t.size := List.length_set ..

theorem Sized.unlink (hs : t.Sized) (h : BitVec 64) (key : κ) : (t.unlink h key).Sized := by
  rw [Sized, size_unlink]
  exact hs

theorem entries_unlink (hs : t.Sized) {key : κ} {e : κ × ν} (hf : t.findIn (hash key) key = some e) :
    t.entries.Perm (e :: (t.unlink (hash key) key).entries) := by
  refine Buckets.flatten_set_of_perm (x := []) (y := [e]) (hs.getElem?_index _) ?_
  have hfind : (t.chain (t.index (hash key))).find? (·.1 = key) = some e := hf
  -- The entry that is unlinked is the one the walk found.
  rw [List.find?_eq_some_iff_append] at hfind
  obtain ⟨hkey, as, bs, hsplit, has⟩ := hfind
  have herase : (t.chain (t.index (hash key))).eraseP (·.1 = key) = as ++ bs := by
    rw [hsplit, List.eraseP_append_right _ (by simpa using has)]
    simp [of_decide_eq_true hkey]
  rw [List.nil_append, herase, hsplit]
  exact List.perm_middle

theorem Wf.unlink (h : t.Wf hash) (hs : t.Sized) {key : κ} {e : κ × ν}
    (hf : t.findIn (hash key) key = some e) : (t.unlink (hash key) key).Wf hash := by
  refine h.set ?_ ?_
  · intro e' he'
    exact h.chain_placed _ e' (List.mem_of_mem_eraseP he')
  · have hlen := (entries_unlink hs hf).length_eq
    rw [List.length_cons, ← h.used] at hlen
    have hgoal : t.used - 1 = (t.unlink (hash key) key).entries.length := by omega
    exact hgoal

/-! ### Setting a value -/

/-- The key's entry gets the value. -/
def withVal (key : κ) (val : ν) (e : κ × ν) : κ × ν := if e.1 = key then (e.1, val) else e

@[simp] theorem withVal_fst (key : κ) (val : ν) (e : κ × ν) : (withVal key val e).1 = e.1 := by
  rw [withVal]
  split <;> rfl

theorem withVal_of_ne {key : κ} {e : κ × ν} (h : e.1 ≠ key) (val : ν) : withVal key val e = e :=
  if_neg h

theorem size_setVal (h : BitVec 64) (key : κ) (val : ν) : (t.setVal h key val).size = t.size :=
  List.length_set ..

/-- Only the key's own bucket is gone through, but the others have no entry of the key. -/
theorem Wf.table_setVal (h : t.Wf hash) (key : κ) (val : ν) :
    (t.setVal (hash key) key val).table = t.table.map (List.map (withVal key val)) := by
  apply List.ext_getElem?
  intro i
  rw [setVal, List.getElem?_set, List.getElem?_map]
  split
  · next hi =>
    subst hi
    split
    · next hlt =>
      rw [chain, List.getElem?_eq_getElem hlt, Option.getD_some, Option.map_some]
      rfl
    · next hge => rw [List.getElem?_eq_none (by omega), Option.map_none]
  · next hi =>
    cases hb : t.table[i]? with
    | none => rfl
    | some b =>
      have hid : b.map (withVal key val) = b := by
        conv_rhs => rw [← List.map_id b]
        apply List.map_congr_left
        intro e he
        apply withVal_of_ne
        intro hkey
        subst hkey
        exact hi (h.placed i b hb e he)
      rw [Option.map_some, hid]

theorem Wf.entries_setVal (h : t.Wf hash) (key : κ) (val : ν) :
    (t.setVal (hash key) key val).entries = t.entries.map (withVal key val) := by
  rw [entries, h.table_setVal, entries, List.map_flatten]

theorem Wf.setVal (h : t.Wf hash) (key : κ) (val : ν) : (t.setVal (hash key) key val).Wf hash := by
  refine h.set ?_ ?_
  · intro e he
    obtain ⟨e', he', rfl⟩ := List.mem_map.1 he
    have hfst := withVal_fst key val e'
    rw [withVal] at hfst
    rw [hfst]
    exact h.chain_placed _ e' he'
  · have hlen := congrArg List.length (h.entries_setVal key val)
    rw [List.length_map, ← h.used] at hlen
    exact hlen.symm

end

/-! ### Emptying a bucket into another table -/

/-- Each entry at the head of its bucket, one after the other. -/
def insertAll (hash : κ → BitVec 64) (t : Dictht κ ν) (b : List (κ × ν)) : Dictht κ ν :=
  b.foldl (fun t e => t.insertAt (t.index (hash e.1)) e) t

theorem insertAll_spec (b : List (κ × ν)) :
    ∀ {t : Dictht κ ν}, t.Wf hash → t.Sized →
      (t.insertAll hash b).Wf hash ∧ (t.insertAll hash b).size = t.size ∧
        (b ++ t.entries).Perm (t.insertAll hash b).entries := by
  induction b with
  | nil => exact fun h _ => ⟨h, rfl, List.Perm.refl _⟩
  | cons e b ih =>
    intro t h hs
    obtain ⟨hwf, hsize, hperm⟩ := ih (h.insertAt hs e) (hs.insertAt _ e)
    refine ⟨hwf, hsize.trans (size_insertAt _ e), ?_⟩
    calc (e :: b ++ t.entries).Perm (b ++ e :: t.entries) := List.perm_middle.symm
      List.Perm _ (b ++ (t.insertAt (t.index (hash e.1)) e).entries) :=
        (hs.entries_insertAt e).append_left b
      List.Perm _ _ := hperm

theorem Wf.clear (h : t.Wf hash) {i : Nat} {b : List (κ × ν)} (hb : t.table[i]? = some b) :
    Wf hash ⟨t.table.set i [], t.used - b.length⟩ := by
  refine h.set (by simp) ?_
  have hlen := (Buckets.flatten_perm hb).length_eq
  rw [List.length_append] at hlen
  rw [h.used, entries, hlen]
  exact Nat.add_sub_cancel_left ..

end Dictht

end Redis
