/-
The invariant of the dictionary, and what each operation does to its entries.

`Dict.Wf` says that the tables have power-of-two sizes, each entry is in the
bucket its hash sends it to, each key is there once, and the buckets before
`rehashidx` are empty. Everything the server does on its own, resizing and
moving buckets, is `Same`: the invariant is kept and the entries are what they
were.
-/
import CfsShop.Redis.Dictht

namespace Redis

variable {κ ν : Type}

/-! ## Two tables -/

namespace Dict

def entries (d : Dict κ ν) : List (κ × ν) := d.ht0.entries ++ d.ht1.entries

/-- Both tables are allocated, and the buckets before `idx` have been emptied. -/
structure Rehashing (d : Dict κ ν) (idx : Nat) : Prop where
  sized0 : d.ht0.Sized
  sized1 : d.ht1.Sized
  le : idx ≤ d.ht0.size
  empty : ∀ j < idx, d.ht0.table[j]? = some []

structure Wf (hash : κ → BitVec 64) (d : Dict κ ν) : Prop where
  ht0 : d.ht0.Wf hash
  ht1 : d.ht1.Wf hash
  nodup : (d.entries.map (·.1)).Nodup
  single : d.rehashidx = none → (d.ht0 = dictReset ∨ d.ht0.Sized) ∧ d.ht1 = dictReset
  rehashing : ∀ idx, d.rehashidx = some idx → d.Rehashing idx

/-- What the server does on its own: the invariant is kept, and the entries are what they were. -/
structure Same (hash : κ → BitVec 64) (d d' : Dict κ ν) : Prop where
  wf : d'.Wf hash
  perm : d.entries.Perm d'.entries

variable {hash : κ → BitVec 64} {d d' d'' : Dict κ ν}

theorem Wf.same (h : d.Wf hash) : Same hash d d := ⟨h, List.Perm.refl _⟩

theorem Same.trans (h : Same hash d d') (h' : Same hash d' d'') : Same hash d d'' :=
  ⟨h'.wf, h.perm.trans h'.perm⟩

theorem wf_create : (dictCreate : Dict κ ν).Wf hash where
  ht0 := Dictht.wf_reset
  ht1 := Dictht.wf_reset
  nodup := List.nodup_nil
  single := fun _ => ⟨.inl rfl, rfl⟩
  rehashing := fun _ h => absurd h.symm (Option.some_ne_none _)

theorem Wf.size_eq (h : d.Wf hash) : dictSize d = d.entries.length := by
  rw [dictSize, entries, List.length_append, h.ht0.used, h.ht1.used]

theorem nodup_of_perm {l l' : List (κ × ν)} (h : l.Perm l') (hn : (l.map (·.1)).Nodup) :
    (l'.map (·.1)).Nodup := (h.map _).nodup hn

/-! ### Rehashing -/

theorem skipEmpty_spec (table : List (List (κ × ν))) (emptyVisits idx : Nat) :
    idx ≤ (skipEmpty table emptyVisits idx).2 ∧
      (∀ j, idx ≤ j → j < (skipEmpty table emptyVisits idx).2 → table[j]? = some []) ∧
      ((skipEmpty table emptyVisits idx).1 ≠ 0 →
        table[(skipEmpty table emptyVisits idx).2]? ≠ some []) := by
  induction emptyVisits generalizing idx with
  | zero => exact ⟨Nat.le_refl _, fun j hj hj' => absurd hj (Nat.not_le.2 hj'), fun h => absurd rfl h⟩
  | succ emptyVisits ih =>
    rw [skipEmpty]
    split
    · next hempty =>
      obtain ⟨hle, hbetween, hstop⟩ := ih (idx + 1)
      refine ⟨by omega, ?_, hstop⟩
      intro j hj hj'
      rcases Nat.eq_or_lt_of_le hj with rfl | hlt
      · exact hempty
      · exact hbetween j hlt hj'
    · next hne =>
      refine ⟨Nat.le_refl _, fun j hj hj' => absurd hj (Nat.not_le.2 hj'), ?_⟩
      intro _ hempty
      exact hne hempty

/-- Buckets that were found empty are behind the index. -/
theorem Rehashing.skip {idx : Nat} (h : d.Rehashing idx) (emptyVisits : Nat) :
    ∀ j < (skipEmpty d.ht0.table emptyVisits idx).2, d.ht0.table[j]? = some [] := by
  intro j hj
  by_cases hlt : j < idx
  · exact h.empty j hlt
  · exact (skipEmpty_spec d.ht0.table emptyVisits idx).2.1 j (Nat.not_lt.1 hlt) hj

theorem le_size_of_empty {t : Dictht κ ν} {idx : Nat} (h : ∀ j < idx, t.table[j]? = some []) :
    idx ≤ t.size := by
  cases idx with
  | zero => exact Nat.zero_le _
  | succ idx =>
    have hsome := h idx (Nat.lt_succ_self _)
    exact (List.getElem?_eq_some_iff.1 hsome).1

/-- While the first table holds anything, the buckets that remain are not all empty: `rehashidx`
does not run off the table. -/
theorem lt_size_of_used (h0 : d.ht0.Wf hash) (hused : d.ht0.used ≠ 0) {idx : Nat}
    (hempty : ∀ j < idx, d.ht0.table[j]? = some []) : idx < d.ht0.size := by
  have hne : d.ht0.table.flatten ≠ [] := by
    intro hnil
    rw [h0.used, Dictht.entries, hnil] at hused
    exact hused rfl
  obtain ⟨j, b, hb, hbne⟩ := Buckets.exists_ne_nil hne
  have hle : idx ≤ j := by
    by_contra hlt
    rw [hempty j (by omega), Option.some.injEq] at hb
    exact hbne hb.symm
  exact hle.trans_lt (List.getElem?_eq_some_iff.1 hb).1

/-- One bucket moved. -/
theorem Wf.moveBucket (h : d.Wf hash) {idx : Nat} (hr : d.Rehashing idx) (hlt : idx < d.ht0.size) :
    Same hash d (d.moveBucket hash idx) ∧ (d.moveBucket hash idx).Rehashing (idx + 1) := by
  have hb : d.ht0.table[idx]? = some (d.ht0.chain idx) := by
    rw [Dictht.chain, List.getElem?_eq_getElem hlt, Option.getD_some]
  obtain ⟨hwf1, hsize1, hperm1⟩ := Dictht.insertAll_spec (d.ht0.chain idx) h.ht1 hr.sized1
  have hsize0 : (d.moveBucket hash idx).ht0.size = d.ht0.size := List.length_set ..
  have hperm : d.entries.Perm (d.moveBucket hash idx).entries := by
    calc d.entries.Perm ((d.ht0.chain idx ++ (d.ht0.table.set idx []).flatten) ++ d.ht1.entries) :=
          (Buckets.flatten_perm hb).append_right _
      List.Perm _ ((d.ht0.table.set idx []).flatten ++ (d.ht0.chain idx ++ d.ht1.entries)) := by
          rw [← List.append_assoc]
          exact List.perm_append_comm.append_right _
      List.Perm _ (d.moveBucket hash idx).entries := hperm1.append_left _
  have hnext : (d.moveBucket hash idx).Rehashing (idx + 1) := by
    refine ⟨?_, ?_, hsize0 ▸ hlt, ?_⟩
    · rw [Dictht.Sized, hsize0]
      exact hr.sized0
    · have hs := hr.sized1
      rw [Dictht.Sized, ← hsize1] at hs
      exact hs
    · intro j hj
      have hget : (d.ht0.table.set idx [])[j]? = some [] := by
        rw [List.getElem?_set]
        split
        · next hij => rw [if_pos (hij ▸ hlt)]
        · next hij => exact hr.empty j (by omega)
      exact hget
  refine ⟨⟨⟨h.ht0.clear hb, hwf1, nodup_of_perm hperm h.nodup,
    (fun hn => absurd hn (Option.some_ne_none _)), ?_⟩, hperm⟩, hnext⟩
  intro i hi
  obtain rfl : idx + 1 = i := Option.some.inj hi
  exact hnext

/-- The index moves on over empty buckets. -/
theorem Wf.skipTo (h : d.Wf hash) {idx i : Nat} (hr : d.Rehashing idx)
    (hempty : ∀ j < i, d.ht0.table[j]? = some []) :
    Same hash d { d with rehashidx := some i } := by
  refine ⟨⟨h.ht0, h.ht1, h.nodup, (fun hn => absurd hn (Option.some_ne_none _)), ?_⟩, List.Perm.refl _⟩
  intro i' hi'
  obtain rfl : i = i' := Option.some.inj hi'
  exact ⟨hr.sized0, hr.sized1, le_size_of_empty hempty, hempty⟩

theorem rehashLoop_same (n : Nat) :
    ∀ (emptyVisits : Nat) {idx : Nat} {d : Dict κ ν}, d.Wf hash → d.rehashidx = some idx →
      Same hash d (rehashLoop hash n emptyVisits idx d).1 ∧
        ((rehashLoop hash n emptyVisits idx d).1).rehashidx ≠ none := by
  induction n with
  | zero =>
    intro emptyVisits idx d h hi
    exact ⟨h.same, by rw [rehashLoop, hi]; exact Option.some_ne_none _⟩
  | succ n ih =>
    intro emptyVisits idx d h hi
    rw [rehashLoop]
    split
    · exact ⟨h.same, by rw [hi]; exact Option.some_ne_none _⟩
    · next hused =>
      have hr := h.rehashing idx hi
      have hempty := hr.skip emptyVisits
      split
      · next idx' hskip =>
        rw [hskip] at hempty
        exact ⟨h.skipTo hr hempty, Option.some_ne_none _⟩
      · next left idx' hskip =>
        rw [hskip] at hempty
        have hr' : d.Rehashing idx' := ⟨hr.sized0, hr.sized1, le_size_of_empty hempty, hempty⟩
        obtain ⟨hsame, -⟩ := h.moveBucket hr' (lt_size_of_used h.ht0 hused hempty)
        obtain ⟨hrest, hidx⟩ := ih (left + 1) hsame.wf rfl
        exact ⟨hsame.trans hrest, hidx⟩

/-- When the first table is empty the second takes its place. -/
theorem Wf.finish (h : d.Wf hash) (hi : d.rehashidx ≠ none) (hused : d.ht0.used = 0) :
    Same hash d { d with ht0 := d.ht1, ht1 := dictReset, rehashidx := none } := by
  obtain ⟨idx, hi⟩ := Option.ne_none_iff_exists'.1 hi
  have hnil : d.ht0.entries = [] := List.eq_nil_of_length_eq_zero (h.ht0.used ▸ hused)
  have hperm : d.entries.Perm
      ({ d with ht0 := d.ht1, ht1 := dictReset, rehashidx := none } : Dict κ ν).entries := by
    rw [entries, entries, hnil, Dictht.entries_reset, List.append_nil]
    exact List.Perm.refl _
  refine ⟨⟨h.ht1, Dictht.wf_reset, nodup_of_perm hperm h.nodup, ?_,
    (fun _ hn => absurd hn.symm (Option.some_ne_none _))⟩, hperm⟩
  exact fun _ => ⟨.inr (h.rehashing idx hi).sized1, rfl⟩

/-- Rehashing moves entries and changes nothing. -/
theorem Wf.dictRehash (h : d.Wf hash) (n : Nat) : Same hash d (dictRehash hash d n).1 := by
  rw [Redis.dictRehash]
  split
  · exact h.same
  · next idx hi =>
    obtain ⟨hsame, hne⟩ := rehashLoop_same n (n * 10) h hi
    generalize rehashLoop hash n (n * 10) idx d = r at hsame hne
    obtain ⟨d', stopped⟩ := r
    cases stopped with
    | true => exact hsame
    | false =>
      simp only
      split
      · next hused => exact hsame.trans (hsame.wf.finish hne hused)
      · exact hsame

theorem Wf.stepIfRehashing (h : d.Wf hash) : Same hash d (d.stepIfRehashing hash) := by
  rw [Dict.stepIfRehashing, dictRehashStep]
  split
  · split
    · exact h.dictRehash 1
    · exact h.same
  · exact h.same

/-! ### Resizing -/

theorem nextPowerLoop_spec {size : Nat} (hsize : size ≤ 2 ^ 63) (fuel : Nat) :
    ∀ {k : Nat}, k + fuel = 63 →
      ∃ k', k' ≤ 63 ∧ nextPowerLoop size fuel (2 ^ k) = 2 ^ k' ∧ size ≤ 2 ^ k' := by
  induction fuel with
  | zero =>
    intro k hk
    obtain rfl : k = 63 := hk
    exact ⟨63, Nat.le_refl _, rfl, hsize⟩
  | succ fuel ih =>
    intro k hk
    rw [nextPowerLoop]
    split
    · next hle => exact ⟨k, by omega, rfl, hle⟩
    · obtain ⟨k', hk', heq, hle⟩ := ih (k := k + 1) (by omega)
      exact ⟨k', hk', by rw [← heq, Nat.pow_succ], hle⟩

theorem dictNextPower_spec (size : Nat) :
    ∃ k, k ≤ 63 ∧ dictNextPower size = 2 ^ k ∧ (size < LONG_MAX → size ≤ 2 ^ k) := by
  rw [dictNextPower]
  split
  · next h => exact ⟨63, Nat.le_refl _, rfl, fun hlt => absurd h (Nat.not_le.2 hlt)⟩
  · next h =>
    rw [LONG_MAX] at h
    obtain ⟨k, hk, heq, hle⟩ := nextPowerLoop_spec (show size ≤ 2 ^ 63 by omega) 61 (k := 2) rfl
    exact ⟨k, hk, heq, fun _ => hle⟩

theorem sized_alloc (size : Nat) : (dictAlloc (dictNextPower size) : Dictht κ ν).Sized := by
  obtain ⟨k, hk, heq, -⟩ := dictNextPower_spec size
  exact ⟨k, hk, by rw [Dictht.size_alloc, heq]⟩

theorem isRehashing_eq_false : d.isRehashing = false ↔ d.rehashidx = none := by
  rw [isRehashing, Option.isSome_eq_false_iff, Option.isNone_iff_eq_none]

/-- Expanding gives an empty table, the first or the second, and leaves the entries alone. -/
theorem Wf.dictExpand (h : d.Wf hash) {size : Nat} (he : dictExpand d size = some d') :
    Same hash d d' ∧ d'.ht0.Sized := by
  simp only [Redis.dictExpand] at he
  split at he
  · exact absurd he.symm (Option.some_ne_none _)
  next hbusy =>
  split at he
  · exact absurd he.symm (Option.some_ne_none _)
  have hi : d.rehashidx = none := isRehashing_eq_false.1 (by simpa using fun hr => hbusy (.inl hr))
  obtain ⟨htable, hreset⟩ := h.single hi
  have halloc : (dictAlloc (dictNextPower size) : Dictht κ ν).Sized := sized_alloc size
  split at he
  · next hempty =>
    obtain rfl := Option.some.inj he
    have hnil : d.ht0.entries = [] := by
      rw [Dictht.entries, List.isEmpty_iff.1 hempty]
      rfl
    have hperm : d.entries.Perm ({ d with ht0 := dictAlloc (dictNextPower size) } : Dict κ ν).entries := by
      rw [entries, entries, hnil, Dictht.entries_alloc]
    refine ⟨⟨⟨Dictht.wf_alloc _, h.ht1, nodup_of_perm hperm h.nodup, ?_, ?_⟩, hperm⟩, halloc⟩
    · exact fun _ => ⟨.inr halloc, hreset⟩
    · intro idx hidx
      exact absurd (hi.symm.trans hidx) (by simp)
  · next hne =>
    obtain rfl := Option.some.inj he
    have hsized : d.ht0.Sized := htable.resolve_left fun hr => hne (by rw [hr]; rfl)
    have hperm : d.entries.Perm
        ({ d with ht1 := dictAlloc (dictNextPower size), rehashidx := some 0 } : Dict κ ν).entries := by
      rw [entries, entries, hreset, Dictht.entries_alloc, Dictht.entries_reset]
    refine ⟨⟨⟨h.ht0, Dictht.wf_alloc _, nodup_of_perm hperm h.nodup,
      (fun hn => absurd hn (Option.some_ne_none _)), ?_⟩, hperm⟩, hsized⟩
    intro idx hidx
    obtain rfl : 0 = idx := Option.some.inj hidx
    exact ⟨hsized, halloc, Nat.zero_le _, fun j hj => absurd hj (Nat.not_lt_zero j)⟩

theorem exists_dictExpand (hr : d.isRehashing = false) (size : Nat) (hused : d.ht0.used ≤ size)
    (hne : dictNextPower size ≠ d.ht0.size) : ∃ d', Redis.dictExpand d size = some d' := by
  have hbusy : ¬(d.isRehashing = true ∨ size < d.ht0.used) := by
    rw [hr]
    simpa using hused
  simp only [Redis.dictExpand, if_neg hbusy, if_neg hne]
  split
  · exact ⟨_, rfl⟩
  · exact ⟨_, rfl⟩

theorem Wf.getD_dictExpand (h : d.Wf hash) (size : Nat) : Same hash d ((Redis.dictExpand d size).getD d) := by
  cases he : Redis.dictExpand d size with
  | none => exact h.same
  | some d' => exact (h.dictExpand he).1

theorem Wf.getD_dictResize (h : d.Wf hash) (canResize : Bool) :
    Same hash d ((dictResize canResize d).getD d) := by
  rw [dictResize]
  split
  · exact h.same
  · exact h.getD_dictExpand _

/-- Few enough entries for twice their number to fit `unsigned long`. -/
def Bounded (d : Dict κ ν) : Prop := d.entries.length < 2 ^ 62

/-- The table for a new key is never refused. -/
theorem Wf.dictExpandIfNeeded (h : d.Wf hash) (hb : d.Bounded) (canResize : Bool) :
    ∃ d', dictExpandIfNeeded canResize d = some d' ∧ Same hash d d' ∧ d'.ht0.Sized := by
  have hused : d.ht0.used < 2 ^ 62 := by
    have hsize := h.size_eq
    rw [dictSize] at hsize
    rw [Bounded] at hb
    omega
  simp only [Redis.dictExpandIfNeeded]
  split
  · next hr =>
    obtain ⟨idx, hi⟩ := Option.isSome_iff_exists.1 hr
    exact ⟨d, rfl, h.same, (h.rehashing idx hi).sized0⟩
  next hr =>
  have hr : d.isRehashing = false := by simpa using hr
  obtain ⟨htable, -⟩ := h.single (isRehashing_eq_false.1 hr)
  split
  · next hzero =>
    have hempty : d.ht0.table = [] := List.eq_nil_of_length_eq_zero hzero
    have hused0 : d.ht0.used = 0 := by
      rw [h.ht0.used, Dictht.entries, hempty]
      rfl
    obtain ⟨d', hd'⟩ := exists_dictExpand hr DICT_HT_INITIAL_SIZE (by omega)
      (by rw [hzero]; decide)
    exact ⟨d', hd', h.dictExpand hd'⟩
  next hne =>
  have hsized : d.ht0.Sized := htable.resolve_left fun hr => hne (by rw [hr]; rfl)
  split
  · next hfull =>
    have hpos := hsized.pos
    have hmod : d.ht0.used * 2 % 2 ^ 64 = d.ht0.used * 2 := Nat.mod_eq_of_lt (by omega)
    obtain ⟨k, -, heq, hle⟩ := dictNextPower_spec (d.ht0.used * 2)
    have hle := hle (by rw [LONG_MAX]; omega)
    -- The size asked for is more than the table has.
    obtain ⟨d', hd'⟩ := exists_dictExpand hr (d.ht0.used * 2) (by omega)
      (by rw [heq]; omega)
    rw [hmod]
    exact ⟨d', hd', h.dictExpand hd'⟩
  · exact ⟨d, rfl, h.same, hsized⟩

/-! ### The entries -/

theorem Wf.entries_of_single (h : d.Wf hash) (hr : d.isRehashing = false) : d.entries = d.ht0.entries := by
  obtain ⟨-, hreset⟩ := h.single (isRehashing_eq_false.1 hr)
  rw [entries, hreset, Dictht.entries_reset, List.append_nil]

/-- A key is in the dictionary once. -/
theorem Wf.unique (h : d.Wf hash) {e e' : κ × ν} (he : e ∈ d.entries) (he' : e' ∈ d.entries)
    (hkey : e.1 = e'.1) : e = e' :=
  List.inj_on_of_nodup_map h.nodup he he' hkey

theorem Wf.sized0 (h : d.Wf hash) {e : κ × ν} (he : e ∈ d.ht0.entries) : d.ht0.Sized := by
  cases hi : d.rehashidx with
  | none =>
    refine (h.single hi).1.resolve_left ?_
    intro hr
    rw [hr] at he
    exact absurd he List.not_mem_nil
  | some idx => exact (h.rehashing idx hi).sized0

/-- Tables of the same sizes in the tables' places. -/
theorem Wf.of_tables (h : d.Wf hash) {t0 t1 : Dictht κ ν} (h0 : t0.Wf hash) (h1 : t1.Wf hash)
    (hs0 : t0.size = d.ht0.size) (hs1 : t1.size = d.ht1.size)
    (hempty : ∀ idx, d.rehashidx = some idx → ∀ j < idx, t0.table[j]? = some [])
    (hn : ((t0.entries ++ t1.entries).map (·.1)).Nodup) :
    Wf hash { d with ht0 := t0, ht1 := t1 } := by
  refine ⟨h0, h1, hn, ?_, ?_⟩
  · intro hi
    obtain ⟨htable, hreset⟩ := h.single hi
    constructor
    · rcases htable with hr | hsized
      · exact .inl (h0.eq_reset (by rw [hs0, hr]; rfl))
      · exact .inr (by rw [Dictht.Sized, hs0]; exact hsized)
    · exact h1.eq_reset (by rw [hs1, hreset]; rfl)
  · intro idx hi
    obtain ⟨hsized0, hsized1, hle, -⟩ := h.rehashing idx hi
    rw [Dictht.Sized, ← hs0] at hsized0
    rw [Dictht.Sized, ← hs1] at hsized1
    exact ⟨hsized0, hsized1, hs0 ▸ hle, hempty idx hi⟩

/-- An entry with a key that is not there, in the table new keys go to. -/
theorem Wf.insert (h : d.Wf hash) (hs : d.ht0.Sized) {e : κ × ν} (hfresh : ∀ e' ∈ d.entries, e'.1 ≠ e.1) :
    ∃ d', (if d.isRehashing then { d with ht1 := d.ht1.insertAt (d.ht1.index (hash e.1)) e }
        else { d with ht0 := d.ht0.insertAt (d.ht0.index (hash e.1)) e }) = d' ∧
      d'.Wf hash ∧ (e :: d.entries).Perm d'.entries := by
  have hnodup : ((e :: d.entries).map (·.1)).Nodup := by
    rw [List.map_cons, List.nodup_cons]
    refine ⟨?_, h.nodup⟩
    intro hmem
    obtain ⟨e', he', hkey⟩ := List.mem_map.1 hmem
    exact hfresh e' he' hkey
  refine ⟨_, rfl, ?_⟩
  split
  · next hr =>
    obtain ⟨idx, hi⟩ := Option.isSome_iff_exists.1 hr
    obtain ⟨-, hs1, -, hempty⟩ := h.rehashing idx hi
    have hperm : (e :: d.entries).Perm (d.ht0.entries ++
        (d.ht1.insertAt (d.ht1.index (hash e.1)) e).entries) := by
      calc (e :: d.entries).Perm (d.ht0.entries ++ e :: d.ht1.entries) := List.perm_middle.symm
        List.Perm _ _ := (hs1.entries_insertAt e).append_left _
    refine ⟨h.of_tables h.ht0 (h.ht1.insertAt hs1 e) rfl (Dictht.size_insertAt ..) ?_
      (nodup_of_perm hperm hnodup), hperm⟩
    intro idx' hi'
    obtain rfl : idx = idx' := Option.some.inj (hi.symm.trans hi')
    exact hempty
  · next hr =>
    have hi : d.rehashidx = none := isRehashing_eq_false.1 (by simpa using hr)
    have hperm : (e :: d.entries).Perm ((d.ht0.insertAt (d.ht0.index (hash e.1)) e).entries ++
        d.ht1.entries) := (hs.entries_insertAt e).append_right d.ht1.entries
    refine ⟨h.of_tables (h.ht0.insertAt hs e) h.ht1 (Dictht.size_insertAt ..) rfl ?_
      (nodup_of_perm hperm hnodup), hperm⟩
    intro idx hi'
    exact absurd (hi'.symm.trans hi) (Option.some_ne_none _)

/-! ### Looking up -/

section
variable [DecidableEq κ]

theorem Wf.of_lookup (h : d.Wf hash) {key : κ} {e : κ × ν} (hl : d.lookup (hash key) key = some e) :
    e ∈ d.entries ∧ e.1 = key := by
  rw [lookup] at hl
  split at hl
  · next e' hf =>
    obtain rfl := Option.some.inj hl
    obtain ⟨hmem, hkey⟩ := h.ht0.of_findIn hf
    exact ⟨List.mem_append_left _ hmem, hkey⟩
  · split at hl
    · obtain ⟨hmem, hkey⟩ := h.ht1.of_findIn hl
      exact ⟨List.mem_append_right _ hmem, hkey⟩
    · exact nomatch hl

theorem Wf.not_mem_of_lookup (h : d.Wf hash) {key : κ} (hl : d.lookup (hash key) key = none) :
    ∀ e ∈ d.entries, e.1 ≠ key := by
  rw [lookup] at hl
  split at hl
  · exact nomatch hl
  next hf =>
  have hnot0 := h.ht0.not_mem_of_findIn hf
  split at hl
  · exact List.forall_mem_append.2 ⟨hnot0, h.ht1.not_mem_of_findIn hl⟩
  · next hr =>
    rw [h.entries_of_single (by simpa using hr)]
    exact hnot0

/-- An entry is found if and only if it is in one of the tables. -/
theorem Wf.lookup_eq_some (h : d.Wf hash) {key : κ} {e : κ × ν} :
    d.lookup (hash key) key = some e ↔ e ∈ d.entries ∧ e.1 = key := by
  constructor
  · exact h.of_lookup
  · intro hx
    obtain ⟨he, hkey⟩ := hx
    cases hl : d.lookup (hash key) key with
    | none => exact absurd hkey (h.not_mem_of_lookup hl e he)
    | some e' =>
      obtain ⟨he', hkey'⟩ := h.of_lookup hl
      rw [h.unique he' he (hkey'.trans hkey.symm)]

/-! ### Adding -/

/-- A key is added, or found: there is no third outcome. -/
theorem Wf.dictAddRaw (h : d.Wf hash) (hb : d.Bounded) (canResize : Bool) (key : κ) (val : ν) :
    (∃ d', dictAddRaw canResize hash d key val = (d', .ok ()) ∧ d'.Wf hash ∧
        ((key, val) :: d.entries).Perm d'.entries ∧ ∀ e ∈ d.entries, e.1 ≠ key) ∨
      ∃ d' e, dictAddRaw canResize hash d key val = (d', .error (some e)) ∧ Same hash d d' ∧
        e ∈ d.entries ∧ e.1 = key := by
  have hstep := h.stepIfRehashing
  have hb' : (d.stepIfRehashing hash).Bounded := by
    rw [Bounded, ← hstep.perm.length_eq]
    exact hb
  obtain ⟨d1, hexpand, hsame, hs⟩ := hstep.wf.dictExpandIfNeeded hb' canResize
  have hsame := hstep.trans hsame
  simp only [Redis.dictAddRaw, dictKeyIndex, hexpand]
  cases hl : d1.lookup (hash key) key with
  | some e =>
    obtain ⟨he, hkey⟩ := hsame.wf.of_lookup hl
    exact .inr ⟨d1, e, rfl, hsame, hsame.perm.mem_iff.2 he, hkey⟩
  | none =>
    have hfresh := hsame.wf.not_mem_of_lookup hl
    obtain ⟨d', hd', hwf, hperm⟩ := hsame.wf.insert hs (e := (key, val)) hfresh
    refine .inl ⟨d', ?_, hwf, (hsame.perm.cons _).trans hperm, ?_⟩
    · rw [← hd']
      cases hr : d1.isRehashing <;> simp [hr]
    · intro e he
      exact hfresh e (hsame.perm.mem_iff.1 he)

/-! ### Setting and deleting -/

theorem Wf.setVal (h : d.Wf hash) (key : κ) (val : ν) :
    (d.setVal (hash key) key val).Wf hash ∧
      (d.setVal (hash key) key val).entries = d.entries.map (Dictht.withVal key val) := by
  have hentries : (d.setVal (hash key) key val).entries = d.entries.map (Dictht.withVal key val) := by
    rw [entries, entries, List.map_append, ← h.ht0.entries_setVal, ← h.ht1.entries_setVal]
    rfl
  refine ⟨h.of_tables (h.ht0.setVal key val) (h.ht1.setVal key val) (Dictht.size_setVal ..)
    (Dictht.size_setVal ..) ?_ ?_, hentries⟩
  · intro idx hi j hj
    rw [h.ht0.table_setVal, List.getElem?_map, (h.rehashing idx hi).empty j hj]
    rfl
  · have hfst : (fun e : κ × ν => e.1) ∘ Dictht.withVal key val = (·.1) := by
      funext e
      exact Dictht.withVal_fst key val e
    have hmap := congrArg (List.map (·.1)) hentries
    rw [List.map_map, hfst] at hmap
    have hn := h.nodup
    rw [← hmap] at hn
    exact hn

theorem unlink_empty {t : Dictht κ ν} {j : Nat} (h : t.table[j]? = some []) (x : BitVec 64) (key : κ) :
    (t.unlink x key).table[j]? = some [] := by
  rw [Dictht.unlink, List.getElem?_set]
  split
  · next hij =>
    have hlt := (List.getElem?_eq_some_iff.1 h).1
    rw [Dictht.chain, hij, h]
    simp [hlt]
  · exact h

/-- The key's entry goes, or there was none. -/
theorem Wf.dictGenericDelete (h : d.Wf hash) (key : κ) :
    (∃ d' e, dictGenericDelete hash d key = (d', some e) ∧ d'.Wf hash ∧
        d.entries.Perm (e :: d'.entries) ∧ e.1 = key) ∨
      ∃ d', dictGenericDelete hash d key = (d', none) ∧ Same hash d d' ∧ ∀ e ∈ d.entries, e.1 ≠ key := by
  rw [Redis.dictGenericDelete]
  split
  · next hzero =>
    have hlen := h.size_eq
    rw [dictSize, hzero.1, hzero.2] at hlen
    have hnil : d.entries = [] := List.eq_nil_of_length_eq_zero hlen.symm
    exact .inr ⟨d, rfl, h.same, by simp [hnil]⟩
  have hstep := h.stepIfRehashing
  generalize d.stepIfRehashing hash = d1 at hstep
  have hwf := hstep.wf
  simp only
  split
  · next e hf =>
    obtain ⟨he, hkey⟩ := hwf.ht0.of_findIn hf
    have hperm : d1.entries.Perm (e :: ((d1.ht0.unlink (hash key) key).entries ++ d1.ht1.entries)) :=
      (Dictht.entries_unlink (hwf.sized0 he) hf).append_right _
    refine .inl ⟨_, e, rfl, ?_, hstep.perm.trans hperm, hkey⟩
    refine hwf.of_tables (hwf.ht0.unlink (hwf.sized0 he) hf) hwf.ht1 (Dictht.size_unlink ..) rfl ?_ ?_
    · intro idx hi j hj
      exact unlink_empty ((hwf.rehashing idx hi).empty j hj) _ _
    · exact (List.nodup_cons.1 (nodup_of_perm hperm hwf.nodup)).2
  next hnone0 =>
  have hnot0 := hwf.ht0.not_mem_of_findIn hnone0
  split
  · next hr =>
    obtain ⟨idx, hi⟩ := Option.isSome_iff_exists.1 hr
    have hs1 := (hwf.rehashing idx hi).sized1
    split
    · next e hf =>
      obtain ⟨he, hkey⟩ := hwf.ht1.of_findIn hf
      have hperm : d1.entries.Perm (e :: (d1.ht0.entries ++ (d1.ht1.unlink (hash key) key).entries)) :=
        ((Dictht.entries_unlink hs1 hf).append_left _).trans List.perm_middle
      refine .inl ⟨_, e, rfl, ?_, hstep.perm.trans hperm, hkey⟩
      refine hwf.of_tables hwf.ht0 (hwf.ht1.unlink hs1 hf) rfl (Dictht.size_unlink ..) ?_ ?_
      · intro idx' hi'
        exact (hwf.rehashing idx' hi').empty
      · exact (List.nodup_cons.1 (nodup_of_perm hperm hwf.nodup)).2
    · next hnone1 =>
      refine .inr ⟨d1, rfl, hstep, ?_⟩
      intro e he
      exact List.forall_mem_append.2 ⟨hnot0, hwf.ht1.not_mem_of_findIn hnone1⟩ e (hstep.perm.mem_iff.1 he)
  · next hr =>
    refine .inr ⟨d1, rfl, hstep, ?_⟩
    intro e he
    rw [hstep.perm.mem_iff, hwf.entries_of_single (by simpa using hr)] at he
    exact hnot0 e he

end

end Dict

end Redis
