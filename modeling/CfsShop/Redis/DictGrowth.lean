/-
The sizes of a dictionary's tables, over its runs.

A rehashing moves on with every operation, and it has as many buckets to move
as the old table has: so it is over before the new table, twice as large, is
full, and chains stay short (`dict_load`). And as long as tables only grow, a
scan hands out every key once (`scan_once`); by use they do (`widens_of_grows`).
-/
import CfsShop.Redis.DictScan

namespace Redis

variable {κ ν : Type} {hash : κ → BitVec 64}

/-! ## How a rehashing moves on -/

/-- Everything about a dictionary but what its tables hold. -/
def Dict.shape (d : Dict κ ν) : Nat × Nat × Option Nat × BitVec 64 :=
  (d.ht0.size, d.ht1.size, d.rehashidx, d.iterators)

/-- Out of visits, the walk has made as many as it had. -/
theorem skipEmpty_eq_add (table : List (List (κ × ν))) (emptyVisits idx : Nat)
    (h : (skipEmpty table emptyVisits idx).1 = 0) :
    (skipEmpty table emptyVisits idx).2 = idx + emptyVisits := by
  induction emptyVisits generalizing idx with
  | zero => rfl
  | succ emptyVisits ih =>
    rw [skipEmpty] at h ⊢
    split
    · next hempty =>
      rw [hempty] at h
      rw [ih (idx + 1) h]
      omega
    · next hne =>
      split at h
      · next hempty => exact absurd hempty (hne ·)
      · exact absurd h (Nat.succ_ne_zero _)

/-- A rehashing at `idx` that went on to at least `least`, or is over. -/
inductive Moved (d : Dict κ ν) (least : Nat) (d' : Dict κ ν) : Prop
  | finished : d'.rehashidx = none → d'.ht0.size = d.ht1.size → Moved d least d'
  | going (idx' : Nat) : d'.rehashidx = some idx' → least ≤ idx' → idx' < d.ht0.size →
      d'.ht0.size = d.ht0.size → d'.ht1.size = d.ht1.size → Moved d least d'

theorem rehashLoop_sizes (n : Nat) :
    ∀ (emptyVisits : Nat) {idx : Nat} {d : Dict κ ν}, d.Wf hash → d.rehashidx = some idx →
      (rehashLoop hash n emptyVisits idx d).1.ht0.size = d.ht0.size ∧
      (rehashLoop hash n emptyVisits idx d).1.ht1.size = d.ht1.size ∧
      (rehashLoop hash n emptyVisits idx d).1.iterators = d.iterators ∧
      ((rehashLoop hash n emptyVisits idx d).2 = true →
        (rehashLoop hash n emptyVisits idx d).1.ht0.used ≠ 0) ∧
      ∃ idx', (rehashLoop hash n emptyVisits idx d).1.rehashidx = some idx' ∧ idx ≤ idx' ∧
        (n ≠ 0 → emptyVisits ≠ 0 → (rehashLoop hash n emptyVisits idx d).1.ht0.used ≠ 0 → idx < idx') := by
  induction n with
  | zero =>
    intro emptyVisits idx d h hi
    exact ⟨rfl, rfl, rfl, (fun hstop => Bool.noConfusion hstop), idx, hi, Nat.le_refl _, fun hn => absurd rfl hn⟩
  | succ n ih =>
    intro emptyVisits idx d h hi
    rw [rehashLoop]
    split
    · next hused =>
      exact ⟨rfl, rfl, rfl, (fun hstop => Bool.noConfusion hstop), idx, hi, Nat.le_refl _,
        fun _ _ hne => absurd hused hne⟩
    · next hused =>
      have hr := h.rehashing idx hi
      have hempty := hr.skip emptyVisits
      have hle := (Dict.skipEmpty_spec d.ht0.table emptyVisits idx).1
      split
      · next idx' hskip =>
        have hadd := skipEmpty_eq_add d.ht0.table emptyVisits idx (by rw [hskip])
        rw [hskip] at hadd
        simp only at hadd
        exact ⟨rfl, rfl, rfl, fun _ => hused, idx', rfl, by omega, fun _ hne _ => by omega⟩
      · next left idx' hskip =>
        rw [hskip] at hempty hle
        simp only at hle
        have hr' : d.Rehashing idx' := ⟨hr.sized0, hr.sized1, Dict.le_size_of_empty hempty, hempty⟩
        obtain ⟨hsame, hnext⟩ := h.moveBucket hr' (Dict.lt_size_of_used h.ht0 hused hempty)
        obtain ⟨hs0, hs1, hiter, hstop, i, hidx, hge, -⟩ :=
          ih (left + 1) hsame.wf rfl
        have hsize0 : (d.moveBucket hash idx').ht0.size = d.ht0.size := List.length_set ..
        have hsize1 : (d.moveBucket hash idx').ht1.size = d.ht1.size :=
          (Dictht.insertAll_spec (d.ht0.chain idx') h.ht1 hr.sized1).2.1
        exact ⟨hs0.trans hsize0, hs1.trans hsize1, hiter, hstop, i, hidx, by omega,
          fun _ _ _ => by omega⟩

theorem Dict.Wf.dictRehash_moved {d : Dict κ ν} (h : d.Wf hash) {idx : Nat} (hi : d.rehashidx = some idx)
    (n : Nat) :
    Moved d (idx + min n 1) (Redis.dictRehash hash d n).1 ∧
      (Redis.dictRehash hash d n).1.iterators = d.iterators := by
  obtain ⟨hsame, -⟩ := Dict.rehashLoop_same n (n * 10) h hi
  obtain ⟨hs0, hs1, hiter, hstop, idx', hidx', hle, hlt⟩ := rehashLoop_sizes n (n * 10) h hi
  rw [Redis.dictRehash, hi]
  simp only
  generalize rehashLoop hash n (n * 10) idx d = r at *
  obtain ⟨d', stopped⟩ := r
  simp only at *
  have hgoing : d'.ht0.used ≠ 0 → Moved d (idx + min n 1) d' := by
    intro hused
    have hr := hsame.wf.rehashing idx' hidx'
    have hend := Dict.lt_size_of_used hsame.wf.ht0 hused hr.empty
    have hleast : idx + min n 1 ≤ idx' := by
      rcases Nat.eq_zero_or_pos n with rfl | hn
      · omega
      · have := hlt (by omega) (by omega) hused
        omega
    exact .going idx' hidx' hleast (hs0 ▸ hend) hs0 hs1
  cases stopped with
  | true => exact ⟨hgoing (hstop rfl), hiter⟩
  | false =>
    simp only
    split
    · exact ⟨.finished rfl hs1, hiter⟩
    · next hused => exact ⟨hgoing hused, hiter⟩

/-- Before an operation: nothing, or one more bucket. -/
theorem Dict.Wf.stepIfRehashing_cases {d : Dict κ ν} (h : d.Wf hash) :
    (d.stepIfRehashing hash = d ∧ (d.rehashidx = none ∨ d.iterators ≠ 0)) ∨
      ∃ idx, d.rehashidx = some idx ∧ Moved d (idx + 1) (d.stepIfRehashing hash) ∧
        (d.stepIfRehashing hash).iterators = d.iterators := by
  rw [Dict.stepIfRehashing, dictRehashStep]
  split
  · next hr =>
    split
    · obtain ⟨idx, hi⟩ := Option.isSome_iff_exists.1 hr
      exact .inr ⟨idx, hi, h.dictRehash_moved hi 1⟩
    · next hiter => exact .inl ⟨rfl, .inr hiter⟩
  · next hr => exact .inl ⟨rfl, .inl (Dict.isRehashing_eq_false.1 (by simpa using hr))⟩

/-! ## How the tables grow -/

/-- What making room for a new key does. -/
inductive Expanded (canResize : Bool) (d : Dict κ ν) : Dict κ ν → Prop
  | stay : d.rehashidx ≠ none ∨ (canResize = true → d.ht0.used < d.ht0.size) → Expanded canResize d d
  | first (d' : Dict κ ν) : d.rehashidx = none → d.ht0.size = 0 → d'.rehashidx = none →
      d'.ht0.size = DICT_HT_INITIAL_SIZE → dictSize d' = dictSize d → d'.iterators = d.iterators →
      Expanded canResize d d'
  | grow (d' : Dict κ ν) : d.rehashidx = none → 0 < d.ht0.size → d'.rehashidx = some 0 →
      d'.ht0.size = d.ht0.size → d.ht0.size * 2 ≤ d'.ht1.size → dictSize d' = dictSize d →
      d'.iterators = d.iterators → Expanded canResize d d'

theorem Dict.Wf.expanded {d d' : Dict κ ν} (h : d.Wf hash) (hfits : dictSize d < 2 ^ 62) {canResize : Bool}
    (he : Redis.dictExpandIfNeeded canResize d = some d') : Expanded canResize d d' := by
  have hused : d.ht0.used < 2 ^ 62 := (Nat.le_add_right _ _).trans_lt hfits
  simp only [Redis.dictExpandIfNeeded] at he
  split at he
  · next hr =>
    obtain rfl := Option.some.inj he
    exact .stay (.inl (Option.isSome_iff_ne_none.1 hr))
  next hr =>
  have hr : d.isRehashing = false := by simpa using hr
  have hi := Dict.isRehashing_eq_false.1 hr
  obtain ⟨-, hreset⟩ := h.single hi
  split at he
  · next hzero =>
    simp only [Redis.dictExpand] at he
    split at he
    · exact absurd he.symm (Option.some_ne_none _)
    split at he
    · exact absurd he.symm (Option.some_ne_none _)
    have hempty : d.ht0.table = [] := List.eq_nil_of_length_eq_zero hzero
    have hused0 : d.ht0.used = 0 := by
      rw [h.ht0.used, Dictht.entries, hempty]
      rfl
    rw [hempty, List.isEmpty_nil, if_pos rfl, Option.some.injEq] at he
    subst he
    refine .first _ hi hzero hi (Dictht.size_alloc _) ?_ rfl
    rw [dictSize, dictSize, hused0]
    rfl
  next hne =>
  have hpos : 0 < d.ht0.size := Nat.pos_of_ne_zero hne
  split at he
  · next hfull =>
    have hmod : d.ht0.used * 2 % 2 ^ 64 = d.ht0.used * 2 := Nat.mod_eq_of_lt (by omega)
    rw [hmod] at he
    simp only [Redis.dictExpand] at he
    split at he
    · exact absurd he.symm (Option.some_ne_none _)
    split at he
    · exact absurd he.symm (Option.some_ne_none _)
    have hnotempty : ¬ d.ht0.table.isEmpty = true := by
      rw [List.isEmpty_iff_length_eq_zero]
      exact hne
    rw [if_neg hnotempty, Option.some.injEq] at he
    subst he
    obtain ⟨k, -, heq, hle⟩ := Dict.dictNextPower_spec (d.ht0.used * 2)
    have hle := hle (by rw [LONG_MAX]; omega)
    refine .grow _ hi hpos rfl rfl ?_ ?_ rfl
    · rw [Dictht.size_alloc, heq]
      omega
    · rw [dictSize, dictSize, hreset]
      rfl
  · next hroom =>
    obtain rfl := Option.some.inj he
    refine .stay (.inr ?_)
    intro hcan
    by_contra hfull
    exact hroom ⟨Nat.not_lt.1 hfull, .inl hcan⟩

/-! ### What an operation leaves of the shape -/

theorem shape_insertAt0 (d : Dict κ ν) (i : Nat) (e : κ × ν) :
    ({ d with ht0 := d.ht0.insertAt i e } : Dict κ ν).shape = d.shape := by
  simp [Dict.shape, Dictht.size_insertAt]

theorem shape_insertAt1 (d : Dict κ ν) (i : Nat) (e : κ × ν) :
    ({ d with ht1 := d.ht1.insertAt i e } : Dict κ ν).shape = d.shape := by
  simp [Dict.shape, Dictht.size_insertAt]

section
variable [DecidableEq κ]

/-- Adding moves a bucket, makes room, and then puts at most one more entry in. -/
theorem Dict.Wf.shape_dictAddRaw {d : Dict κ ν} (h : d.Wf hash) (hfits : dictSize d < 2 ^ 62)
    (canResize : Bool) (key : κ) (val : ν) :
    ∃ d2, Expanded canResize (d.stepIfRehashing hash) d2 ∧
      (Redis.dictAddRaw canResize hash d key val).1.shape = d2.shape ∧
      dictSize (Redis.dictAddRaw canResize hash d key val).1 ≤ dictSize d2 + 1 := by
  have hstep := h.stepIfRehashing
  have hfits' : dictSize (d.stepIfRehashing hash) < 2 ^ 62 := by
    rw [hstep.wf.size_eq, ← hstep.perm.length_eq, ← h.size_eq]
    exact hfits
  obtain ⟨d2, hexpand, -, -⟩ := hstep.wf.dictExpandIfNeeded (by
    rw [Dict.Bounded, ← hstep.wf.size_eq]
    exact hfits') canResize
  refine ⟨d2, hstep.wf.expanded hfits' hexpand, ?_⟩
  simp only [Redis.dictAddRaw, dictKeyIndex, hexpand]
  cases d2.lookup (hash key) key with
  | some e => exact ⟨rfl, Nat.le_succ _⟩
  | none =>
    cases hr : d2.isRehashing with
    | true =>
      simp only [hr, if_true]
      exact ⟨shape_insertAt1 .., Nat.le_refl _⟩
    | false =>
      simp only [hr, Bool.false_eq_true, if_false]
      refine ⟨shape_insertAt0 .., ?_⟩
      have hcount : d2.ht0.used + 1 + d2.ht1.used ≤ dictSize d2 + 1 := by
        rw [dictSize]
        omega
      exact hcount

/-- Unlinking leaves the shape, and adds nothing. -/
theorem Dict.shape_dictGenericDelete (hash : κ → BitVec 64) (d : Dict κ ν) (key : κ) :
    ((dictGenericDelete hash d key).1.shape = d.shape ∧ dictSize (dictGenericDelete hash d key).1 ≤ dictSize d) ∨
      ((dictGenericDelete hash d key).1.shape = (d.stepIfRehashing hash).shape ∧
        dictSize (dictGenericDelete hash d key).1 ≤ dictSize (d.stepIfRehashing hash)) := by
  rw [dictGenericDelete]
  split
  · exact .inl ⟨rfl, Nat.le_refl _⟩
  right
  generalize d.stepIfRehashing hash = d1
  simp only
  split
  · refine ⟨by simp [Dict.shape, Dictht.size_unlink], ?_⟩
    exact Nat.add_le_add_right (Nat.sub_le _ _) _
  · split
    · split
      · refine ⟨by simp [Dict.shape, Dictht.size_unlink], ?_⟩
        exact Nat.add_le_add_left (Nat.sub_le _ _) _
      · exact ⟨rfl, Nat.le_refl _⟩
    · exact ⟨rfl, Nat.le_refl _⟩

end

/-! ## Chains stay short -/

theorem Dict.Same.size_eq {d d' : Dict κ ν} (hs : Dict.Same hash d d') (h : d.Wf hash) :
    dictSize d' = dictSize d := by
  rw [hs.wf.size_eq, ← hs.perm.length_eq, ← h.size_eq]

/-- There is a bucket for each of `n` entries. While rehashing, the entries may be as many more as
buckets have been moved. -/
def Dict.Holds (d : Dict κ ν) (n : Nat) : Prop :=
  match d.rehashidx with
  | none => n ≤ d.ht0.size
  | some idx => idx < d.ht0.size ∧ d.ht0.size * 2 ≤ d.ht1.size ∧ n ≤ d.ht0.size + idx + 1

/-- Nothing holds the rehashing up, and it keeps up with the keys. -/
def Dict.Load (d : Dict κ ν) : Prop := d.iterators = 0 ∧ d.Holds (dictSize d)

variable {d d' : Dict κ ν}

theorem Dict.Holds.none (hi : d.rehashidx = none) {n : Nat} : d.Holds n ↔ n ≤ d.ht0.size := by
  rw [Dict.Holds, hi]

theorem Dict.Holds.some {idx : Nat} (hi : d.rehashidx = some idx) {n : Nat} : d.Holds n ↔
    idx < d.ht0.size ∧ d.ht0.size * 2 ≤ d.ht1.size ∧ n ≤ d.ht0.size + idx + 1 := by
  rw [Dict.Holds, hi]

theorem Dict.Holds.mono {n n' : Nat} (h : d.Holds n) (hn : n' ≤ n) : d.Holds n' := by
  cases hi : d.rehashidx with
  | none =>
    rw [Dict.Holds.none hi] at h ⊢
    omega
  | some idx =>
    rw [Dict.Holds.some hi] at h ⊢
    exact ⟨h.1, h.2.1, by omega⟩

theorem Dict.Load.of_shape (hd : d.iterators = 0) {n : Nat} (hn : d.Holds n) (hs : d'.shape = d.shape)
    (hle : dictSize d' ≤ n) : d'.Load := by
  obtain ⟨h0, hs⟩ := Prod.mk.inj hs
  obtain ⟨h1, hs⟩ := Prod.mk.inj hs
  obtain ⟨hi, hiter⟩ := Prod.mk.inj hs
  refine ⟨hiter.trans hd, ?_⟩
  have hn := hn.mono hle
  rw [Dict.Holds] at hn ⊢
  rw [hi, h0, h1]
  exact hn

theorem Dict.Load.le (h : d.Load) : dictSize d ≤ if d.isRehashing then d.ht1.size else d.ht0.size := by
  obtain ⟨-, h⟩ := h
  cases hi : d.rehashidx with
  | none =>
    rw [Dict.Holds.none hi] at h
    simpa [Dict.isRehashing, hi] using h
  | some idx =>
    rw [Dict.Holds.some hi] at h
    simp only [Dict.isRehashing, hi, Option.isSome_some, if_true]
    omega

/-- A step of rehashing leaves room for the key that made it, unless it was the last. -/
theorem Dict.Load.moved (h : d.Load) {idx : Nat} (hi : d.rehashidx = some idx) {least : Nat}
    (hle : idx ≤ least) (hm : Moved d least d') (hsize : dictSize d' = dictSize d) :
    (d'.rehashidx = none ∧ d'.Holds (dictSize d')) ∨ d'.Holds (dictSize d' + (least - idx)) := by
  obtain ⟨-, h⟩ := h
  rw [Dict.Holds.some hi] at h
  obtain ⟨hlt, hdouble, hcount⟩ := h
  cases hm with
  | finished hnone hs0 =>
    refine .inl ⟨hnone, ?_⟩
    rw [Dict.Holds.none hnone, hs0]
    omega
  | going idx' hidx' hge hlt' hs0 hs1 =>
    right
    rw [Dict.Holds.some hidx', hs0, hs1]
    exact ⟨hlt', hdouble, by omega⟩

theorem Dict.Load.stepIfRehashing (h : d.Load) (hwf : d.Wf hash) :
    (d.stepIfRehashing hash).Load ∧ ((d.stepIfRehashing hash).rehashidx ≠ Option.none →
      (d.stepIfRehashing hash).Holds (dictSize (d.stepIfRehashing hash) + 1)) := by
  have hsize := hwf.stepIfRehashing.size_eq hwf
  rcases hwf.stepIfRehashing_cases with ⟨heq, hstay⟩ | ⟨idx, hi, hm, hiter⟩
  · rw [heq]
    refine ⟨h, ?_⟩
    intro hne
    exact absurd h.1 (hstay.resolve_left hne)
  · have hroom := h.moved hi (Nat.le_succ idx) hm hsize
    rw [Nat.succ_eq_add_one, Nat.add_sub_cancel_left idx 1] at hroom
    refine ⟨⟨hiter.trans h.1, ?_⟩, ?_⟩
    · exact hroom.elim (fun hx => hx.2) fun hx => hx.mono (Nat.le_succ _)
    · intro hne
      exact hroom.resolve_left fun hx => hne hx.1

/-- With room made, one more entry fits. -/
theorem Dict.Load.expanded (h : d.Load) (hwf : d.Wf hash)
    (hroom : d.rehashidx ≠ none → d.Holds (dictSize d + 1)) (he : Expanded true d d') :
    d'.iterators = 0 ∧ d'.Holds (dictSize d' + 1) := by
  cases he with
  | stay hstay =>
    refine ⟨h.1, ?_⟩
    by_cases hi : d.rehashidx = Option.none
    · obtain ⟨-, hreset⟩ := hwf.single hi
      rw [Dict.Holds.none hi, dictSize, hreset]
      have hlt := hstay.resolve_left (fun hne => hne hi) rfl
      exact hlt
    · exact hroom hi
  | first _ hi hzero hi' hs0 hcount hiter =>
    refine ⟨hiter.trans h.1, ?_⟩
    have hle := (Dict.Holds.none hi).1 h.2
    rw [Dict.Holds.none hi', hs0, hcount]
    exact (Nat.succ_le_succ (hle.trans hzero.le)).trans (by decide)
  | grow _ hi hpos hi' hs0 hs1 hcount hiter =>
    refine ⟨hiter.trans h.1, ?_⟩
    have hle := (Dict.Holds.none hi).1 h.2
    rw [Dict.Holds.some hi', hs0, hcount]
    exact ⟨hpos, hs1, by omega⟩

/-- The operations of a dictionary that is neither resized by hand nor gone over by an iterator. -/
def DictOp.steady : DictOp κ ν → Bool
  | .add _ _ | .replace _ _ | .fetchValue _ | .delete _ | .size | .empty | .rehash _ => true
  | .resize | .expand _ | .iterStart | .iterRelease => false

theorem Dict.Load.of_same_size (h : d.Load) (hs : d'.shape = d.shape) (hle : dictSize d' ≤ dictSize d) :
    d'.Load := Dict.Load.of_shape h.1 h.2 hs hle

section
variable [DecidableEq κ]

theorem Dict.Load.dictAddRaw (h : d.Load) (hwf : d.Wf hash) (hfits : dictSize d < 2 ^ 62) (key : κ) (val : ν) :
    (Redis.dictAddRaw true hash d key val).1.Load := by
  obtain ⟨d2, hexpand, hshape, hcount⟩ := hwf.shape_dictAddRaw hfits true key val
  obtain ⟨hload, hroom⟩ := h.stepIfRehashing hwf
  obtain ⟨hiter, hholds⟩ := hload.expanded hwf.stepIfRehashing.wf hroom hexpand
  exact Dict.Load.of_shape hiter hholds hshape hcount

theorem shape_setVal (d : Dict κ ν) (h : BitVec 64) (key : κ) (val : ν) :
    (d.setVal h key val).shape = d.shape := by
  simp [Dict.shape, Dict.setVal, Dictht.size_setVal]

theorem Dict.Load.step (h : d.Load) (hwf : d.Wf hash) (hfits : dictSize d < 2 ^ 62) {op : DictOp κ ν}
    (hop : op.steady = true) : (dictStep hash d true op).1.Load := by
  cases op with
  | add key val =>
    have hraw := h.dictAddRaw hwf hfits key val
    simp only [dictStep, dictAdd, Prod.map_fst, id]
    generalize Redis.dictAddRaw true hash d key val = r at hraw
    obtain ⟨d', _ | _⟩ := r
    · exact hraw
    · exact hraw
  | replace key val =>
    have hraw := h.dictAddRaw hwf hfits key val
    simp only [dictStep, dictReplace, Prod.map_fst, id]
    generalize Redis.dictAddRaw true hash d key val = r at hraw
    obtain ⟨d', (_ | e) | _⟩ := r
    · exact hraw
    · exact hraw.of_same_size (shape_setVal ..) (Nat.le_refl _)
    · exact hraw
  | fetchValue key =>
    simp only [dictStep, dictFetchValue, dictFind, Prod.map_fst, id]
    split
    · exact h
    · exact (h.stepIfRehashing hwf).1
  | delete key =>
    simp only [dictStep, dictDelete, Prod.map_fst, id]
    rcases Dict.shape_dictGenericDelete hash d key with ⟨hs, hle⟩ | ⟨hs, hle⟩
    · exact h.of_same_size hs hle
    · exact (h.stepIfRehashing hwf).1.of_same_size hs hle
  | size => exact h
  | empty => exact ⟨rfl, Nat.le_refl _⟩
  | rehash n =>
    simp only [dictStep]
    cases hi : d.rehashidx with
    | none =>
      have hsame : (dictRehash hash d n).1 = d := by
        rw [dictRehash, hi]
      rw [hsame]
      exact h
    | some idx =>
      obtain ⟨hm, hiter⟩ := hwf.dictRehash_moved hi n
      have hroom := h.moved hi (Nat.le_add_right _ _) hm ((hwf.dictRehash n).size_eq hwf)
      refine ⟨hiter.trans h.1, ?_⟩
      exact hroom.elim (fun hx => hx.2) fun hx => hx.mono (Nat.le_add_right _ _)
  | resize | expand _ | iterStart | iterRelease => exact Bool.noConfusion hop

theorem Dict.Load.run (ops : List (DictOp κ ν)) (hops : ∀ op ∈ ops, op.steady = true) :
    ∀ {s : Dict κ ν × List (DictReply ν)}, s.1.Wf hash → s.1.Load →
      Run.Along (dictExec hash) fits s (ops.map (true, ·)) →
      Run.Always (dictExec hash) (fun s => s.1.Load) s (ops.map (true, ·)) := by
  induction ops with
  | nil => exact fun _ h _ => h
  | cons op ops ih =>
    intro s hwf h hfits
    rw [List.forall_mem_cons] at hops
    obtain ⟨hfit, hfits⟩ := hfits
    exact ⟨h, ih hops.2 (hwf.step hfit true op) (h.step hwf hfit hops.1) hfits⟩

/-- A dictionary that may always resize, that is neither resized by hand nor gone over by an
iterator, never has more entries than buckets in the table new keys go to. -/
theorem dict_load (hash : κ → BitVec 64) (ops : List (DictOp κ ν)) (hops : ∀ op ∈ ops, op.steady = true)
    (hfits : Run.Along (dictExec hash) fits (dictCreate, []) (ops.map (true, ·))) :
    Run.Always (dictExec hash)
      (fun s => dictSize s.1 ≤ if s.1.isRehashing then s.1.ht1.size else s.1.ht0.size)
      (dictCreate, []) (ops.map (true, ·)) := by
  have hinv := Dict.Load.run ops hops (s := (dictCreate, [])) Dict.wf_create ⟨rfl, Nat.le_refl _⟩ hfits
  exact hinv.imp fun s hs => hs.le

/-- Twenty keys, added in a row, take the table through two rehashings. -/
theorem dict_load_twenty :
    Run.Always (dictExec (BitVec.ofNat 64))
      (fun s => dictSize s.1 ≤ if s.1.isRehashing then s.1.ht1.size else s.1.ht0.size)
      (dictCreate, []) (((List.range 20).map fun i => DictOp.add i ()).map (true, ·)) :=
  dict_load _ _ (by decide) (by decide)

end

/-! ## Scans while tables only grow -/

/-- No rehashing to a smaller table is in progress. -/
def Dict.Growing (d : Dict κ ν) : Prop := d.isRehashing = true → d.ht0.size < d.ht1.size

instance (d : Dict κ ν) : Decidable d.Growing :=
  inferInstanceAs (Decidable (d.isRehashing = true → d.ht0.size < d.ht1.size))

/-- The tables keep growing, and the first has not become smaller. -/
structure Grows (d d' : Dict κ ν) : Prop where
  growing : d.Growing → d'.Growing
  le : d.Growing → d.ht0.size ≤ d'.ht0.size

theorem Grows.trans {d'' : Dict κ ν} (h : Grows d d') (h' : Grows d' d'') : Grows d d'' :=
  ⟨fun hd => h'.growing (h.growing hd), fun hd => (h.le hd).trans (h'.le (h.growing hd))⟩

theorem Grows.of_shape (hs : d'.shape = d.shape) : Grows d d' := by
  obtain ⟨h0, hs⟩ := Prod.mk.inj hs
  obtain ⟨h1, hs⟩ := Prod.mk.inj hs
  obtain ⟨hi, -⟩ := Prod.mk.inj hs
  refine ⟨?_, fun _ => h0.ge⟩
  intro hd
  rw [Dict.Growing, Dict.isRehashing, hi, h0, h1]
  exact hd

theorem Moved.grows {idx least : Nat} (hi : d.rehashidx = some idx) (hm : Moved d least d') : Grows d d' := by
  have hr : d.isRehashing = true := by
    rw [Dict.isRehashing, hi]
    rfl
  cases hm with
  | finished hnone hs0 =>
    refine ⟨?_, fun hd => hs0 ▸ (hd hr).le⟩
    intro _ hr'
    rw [Dict.isRehashing, hnone] at hr'
    exact Bool.noConfusion hr'
  | going _ _ _ _ hs0 hs1 => exact ⟨fun hd _ => hs0 ▸ hs1 ▸ hd hr, fun _ => hs0.ge⟩

theorem Expanded.grows {canResize : Bool} (he : Expanded canResize d d') : Grows d d' := by
  cases he with
  | stay => exact Grows.of_shape rfl
  | first _ _ hzero hi' _ _ _ =>
    refine ⟨?_, fun _ => hzero ▸ Nat.zero_le _⟩
    intro _ hr'
    rw [Dict.isRehashing, hi'] at hr'
    exact Bool.noConfusion hr'
  | grow _ _ hpos _ hs0 hs1 _ _ => exact ⟨fun _ _ => by omega, fun _ => hs0.ge⟩

theorem Dict.Wf.grows_stepIfRehashing (h : d.Wf hash) : Grows d (d.stepIfRehashing hash) := by
  rcases h.stepIfRehashing_cases with ⟨heq, -⟩ | ⟨idx, hi, hm, -⟩
  · rw [heq]
    exact Grows.of_shape rfl
  · exact hm.grows hi

/-- While growing, the smaller table is the first. -/
theorem Dict.Growing.scanSize (h : d.Growing) : d.scanSize = d.ht0.size := by
  rw [Dict.scanSize]
  split
  · next hr => rw [scanTables, if_neg (Nat.not_lt.2 (h hr).le)]
  · rfl

theorem Dict.Growing.aligned (h : d.Growing) (hwf : d.Wf hash) {k : Nat} {v : BitVec 64}
    (hv : Cursor.AtStart k v) (hk : k = 0 ∨ 2 ^ k ≤ d.ht0.size) : d.Aligned v :=
  hwf.aligned hv (h.scanSize ▸ hk)

/-- The operations that never make a table smaller. -/
def DictOp.grows : DictOp κ ν → Bool
  | .add _ _ | .replace _ _ | .fetchValue _ | .delete _ | .size | .rehash _ | .iterStart | .iterRelease => true
  | .empty | .resize | .expand _ => false

section
variable [DecidableEq κ]

theorem Dict.Wf.grows_dictAddRaw (h : d.Wf hash) (hfits : dictSize d < 2 ^ 62) (canResize : Bool) (key : κ)
    (val : ν) : Grows d (Redis.dictAddRaw canResize hash d key val).1 := by
  obtain ⟨d2, hexpand, hshape, -⟩ := h.shape_dictAddRaw hfits canResize key val
  exact (h.grows_stepIfRehashing.trans hexpand.grows).trans (Grows.of_shape hshape)

theorem Dict.Wf.grows_step (h : d.Wf hash) (hfits : dictSize d < 2 ^ 62) (canResize : Bool) {op : DictOp κ ν}
    (hop : op.grows = true) : Grows d (dictStep hash d canResize op).1 := by
  cases op with
  | add key val =>
    have hraw := h.grows_dictAddRaw hfits canResize key val
    simp only [dictStep, dictAdd, Prod.map_fst, id]
    generalize Redis.dictAddRaw canResize hash d key val = r at hraw
    obtain ⟨d', _ | _⟩ := r
    · exact hraw
    · exact hraw
  | replace key val =>
    have hraw := h.grows_dictAddRaw hfits canResize key val
    simp only [dictStep, dictReplace, Prod.map_fst, id]
    generalize Redis.dictAddRaw canResize hash d key val = r at hraw
    obtain ⟨d', (_ | e) | _⟩ := r
    · exact hraw
    · exact hraw.trans (Grows.of_shape (shape_setVal ..))
    · exact hraw
  | fetchValue key =>
    simp only [dictStep, dictFetchValue, dictFind, Prod.map_fst, id]
    split
    · exact Grows.of_shape rfl
    · exact h.grows_stepIfRehashing
  | delete key =>
    simp only [dictStep, dictDelete, Prod.map_fst, id]
    rcases Dict.shape_dictGenericDelete hash d key with ⟨hs, -⟩ | ⟨hs, -⟩
    · exact Grows.of_shape hs
    · exact h.grows_stepIfRehashing.trans (Grows.of_shape hs)
  | size => exact Grows.of_shape rfl
  | rehash n =>
    simp only [dictStep]
    cases hi : d.rehashidx with
    | none =>
      have hsame : (Redis.dictRehash hash d n).1 = d := by
        rw [Redis.dictRehash, hi]
      rw [hsame]
      exact Grows.of_shape rfl
    | some idx => exact (h.dictRehash_moved hi n).1.grows hi
  | iterStart | iterRelease => exact ⟨id, fun _ => Nat.le_refl _⟩
  | empty | resize | expand _ => exact Bool.noConfusion hop

/-- The label leaves the first table no smaller than it is. -/
def Widens (hash : κ → BitVec 64) (s : Scan κ ν) (l : ScanLabel κ ν) : Prop :=
  s.d.ht0.size ≤ (scanExec hash s l).d.ht0.size

instance (hash : κ → BitVec 64) (s : Scan κ ν) (l : ScanLabel κ ν) : Decidable (Widens hash s l) :=
  inferInstanceAs (Decidable (_ ≤ _))

/-- What has been returned is behind the cursor, each key once; and the cursor is the start of a
bucket in a table no larger than the first one. -/
structure Scan.Once (hash : κ → BitVec 64) (s : Scan κ ν) : Prop where
  wf : s.d.Wf hash
  start : ∃ k, Cursor.AtStart k s.cursor ∧ (k = 0 ∨ 2 ^ k ≤ s.d.ht0.size)
  nodup : (s.returned.map (·.1)).Nodup
  behind : s.finished = true ∨ ∀ e ∈ s.returned, Cursor.rank (hash e.1) < Cursor.rank s.cursor

omit [DecidableEq κ] in
theorem Scan.Once.init (h : d.Wf hash) : (Scan.start d).Once hash :=
  ⟨h, ⟨0, Cursor.atStart_zero 0, .inl rfl⟩, List.nodup_nil, .inr fun _ he => absurd he List.not_mem_nil⟩

theorem Scan.Once.op {s : Scan κ ν} (h : s.Once hash) (hfits : dictSize s.d < 2 ^ 62) {canResize : Bool}
    {op : DictOp κ ν} (hsize : Widens hash s (.op canResize op)) : (scanExec hash s (.op canResize op)).Once hash := by
  obtain ⟨k, hk, hk0⟩ := h.start
  exact ⟨h.wf.step hfits canResize op, ⟨k, hk, hk0.imp_right fun hle => hle.trans hsize⟩, h.nodup, h.behind⟩

theorem Scan.Once.call {s : Scan κ ν} (h : s.Once hash) (hg : s.finished = false → s.d.Growing) :
    (scanExec hash s .call).Once hash := by
  rw [scanExec]
  split
  · exact h
  next hopen =>
  have hg := hg (by simpa using hopen)
  have hbehind := h.behind.resolve_left hopen
  by_cases hzero : dictSize s.d = 0
  · simp only [dictScan, hzero, if_true, List.append_nil, decide_true]
    exact ⟨h.wf, ⟨0, Cursor.atStart_zero 0, .inl rfl⟩, h.nodup, .inl rfl⟩
  obtain ⟨j, hj, hscan, hnext, hat, -, hnodup⟩ := h.wf.dictScan hzero s.cursor
  have hj64 : j ≤ 64 := by omega
  rw [hg.scanSize] at hscan
  obtain ⟨k, hk, hsize⟩ := h.start
  have hkj : k ≤ j := by
    rcases hsize with rfl | hle
    · exact Nat.zero_le _
    · rw [hscan] at hle
      exact (Nat.pow_le_pow_iff_right (by omega)).1 hle
  have hstart : Cursor.AtStart j s.cursor := hk.mono hkj
  refine ⟨h.wf, ⟨j, ?_, .inr hscan.ge⟩, ?_, ?_⟩
  · simp only
    rw [hnext]
    exact Cursor.atStart_next _ hj64
  · -- What is handed out now is not behind the cursor, and all that was returned before is.
    simp only
    rw [List.map_append, List.nodup_append]
    refine ⟨h.nodup, hnodup, ?_⟩
    intro key hkey key' hkey' heq
    obtain ⟨e, he, rfl⟩ := List.mem_map.1 hkey
    obtain ⟨e', he', rfl⟩ := List.mem_map.1 hkey'
    have hle := hstart.rank_le hj64 (hat e' he').2
    have hlt := hbehind e he
    rw [heq] at hlt
    exact absurd hle (Nat.not_le.2 hlt)
  · by_cases hne : (dictScan s.d s.cursor).2 = 0
    · exact .inl (decide_eq_true hne)
    · right
      simp only
      intro e he
      rw [hnext] at hne ⊢
      rcases List.mem_append.1 he with he | he
      · exact (hbehind e he).trans (Cursor.rank_lt_rank_next hj64 rfl hne)
      · exact Cursor.rank_lt_rank_next hj64 (hat e he).2 hne

theorem Scan.Once.run (ls : List (ScanLabel κ ν)) {s : Scan κ ν} (h : s.Once hash)
    (hfits : Run.Along (scanExec hash) scanFits s ls)
    (hgrowing : Run.Along (scanExec hash) (AtCalls fun d _ => d.Growing) s ls)
    (hsize : Run.Along (scanExec hash) (Widens hash) s ls) :
    Run.Always (scanExec hash) (Scan.Once hash) s ls := by
  refine ((hfits.and hgrowing).and hsize).always ?_ h
  intro s l h hl
  obtain ⟨⟨hfits, hgrowing⟩, hsize⟩ := hl
  cases l with
  | call => exact h.call (hgrowing rfl)
  | op canResize op => exact h.op hfits hsize

/-- Nothing but use: no table is resized by hand or emptied while the scan goes on. -/
def ScanLabel.grows : ScanLabel κ ν → Bool
  | .call => true
  | .op _ o => o.grows

/-- Use never makes a table smaller. -/
theorem widens_of_grows (ls : List (ScanLabel κ ν)) (hls : ∀ l ∈ ls, l.grows = true) :
    ∀ {s : Scan κ ν}, s.d.Wf hash → s.d.Growing → Run.Along (scanExec hash) scanFits s ls →
      Run.Along (scanExec hash) (AtCalls fun d _ => d.Growing) s ls ∧
        Run.Along (scanExec hash) (Widens hash) s ls := by
  induction ls with
  | nil => exact fun _ _ _ => ⟨trivial, trivial⟩
  | cons l ls ih =>
    intro s hwf hg hfits
    rw [List.forall_mem_cons] at hls
    have hstep : (scanExec hash s l).d.Wf hash ∧ Grows s.d (scanExec hash s l).d := by
      cases l with
      | call =>
        rw [scanExec]
        split
        · exact ⟨hwf, Grows.of_shape rfl⟩
        · exact ⟨hwf, Grows.of_shape rfl⟩
      | op canResize op => exact ⟨hwf.step hfits.1 canResize op, hwf.grows_step hfits.1 canResize hls.1⟩
    obtain ⟨hwf', hgrows⟩ := hstep
    obtain ⟨hcalls, hsizes⟩ := ih hls.2 hwf' (hgrows.growing hg) hfits.2
    exact ⟨⟨fun _ _ => hg, hcalls⟩, ⟨hgrows.le hg, hsizes⟩⟩

/-- The key is in the dictionary. -/
def Present (key : κ) (d : Dict κ ν) (_ : BitVec 64) : Prop := key ∈ d.entries.map (·.1)

instance (key : κ) (d : Dict κ ν) (v : BitVec 64) : Decidable (Present key d v) :=
  inferInstanceAs (Decidable (key ∈ d.entries.map (·.1)))

/-- Of a dictionary whose first table never becomes smaller, and which is not at a call being moved
to a smaller one, a scan returns no key twice, and once it is over has returned every key that was
there at all its calls. -/
theorem scan_once (hash : κ → BitVec 64) (before : List (Bool × DictOp κ ν)) (ls : List (ScanLabel κ ν))
    (hbefore : Run.Along (dictExec hash) fits (dictCreate, []) before)
    (hfits : Run.Along (scanExec hash) scanFits
      (Scan.start (Run.run (dictExec hash) (dictCreate, []) before).1) ls)
    (hgrowing : Run.Along (scanExec hash) (AtCalls fun d _ => d.Growing)
      (Scan.start (Run.run (dictExec hash) (dictCreate, []) before).1) ls)
    (hsize : Run.Along (scanExec hash) (Widens hash)
      (Scan.start (Run.run (dictExec hash) (dictCreate, []) before).1) ls) :
    let final := Run.run (scanExec hash) (Scan.start (Run.run (dictExec hash) (dictCreate, []) before).1) ls
    (final.returned.map (·.1)).Nodup ∧
      (final.finished = true → ∀ key, Run.Along (scanExec hash) (AtCalls (Present key))
        (Scan.start (Run.run (dictExec hash) (dictCreate, []) before).1) ls →
        key ∈ final.returned.map (·.1)) := by
  have hwf := (Represents.create.run before hbefore).1.wf
  generalize (Run.run (dictExec hash) (dictCreate, []) before).1 = d at *
  have honce := Scan.Once.run ls (Scan.Once.init hwf) hfits hgrowing hsize
  refine ⟨honce.last.nodup, ?_⟩
  intro hover key hpresent
  have hreached : Run.Along (scanExec hash) (AtCalls (Reached key)) (Scan.start d) ls := by
    refine Run.Along.imp_of_always ?_ honce (hgrowing.and hpresent)
    intro s l hs hl hcall hopen
    obtain ⟨hg, hp⟩ := hl
    obtain ⟨k, hk, hsize⟩ := hs.start
    exact ⟨hp hcall hopen, (hg hcall hopen).aligned hs.wf hk hsize⟩
  have hcov := covers_run key ls hwf (Scan.covers_start hash key d) hfits hreached
  refine hcov.resolve_right ?_
  rw [hover]
  exact fun hx => Bool.noConfusion hx.1

/-- Four keys are there when the scan starts; the fifth makes the table grow under it. -/
theorem scan_once_five :
    let before := (List.range 4).map fun key => (true, DictOp.add key ())
    let ls := [.call, .op true (.add 4 ()), .call, .op true (.delete 2), .call, .call, .call, .call]
    let final := Run.run (scanExec (BitVec.ofNat 64))
      (Scan.start (Run.run (dictExec (BitVec.ofNat 64)) (dictCreate, []) before).1) ls
    (final.returned.map (·.1)).Nodup ∧
      (final.finished = true → ∀ key, Run.Along (scanExec (BitVec.ofNat 64)) (AtCalls (Present key))
        (Scan.start (Run.run (dictExec (BitVec.ofNat 64)) (dictCreate, []) before).1) ls →
        key ∈ final.returned.map (·.1)) := by
  intro before ls
  have hbefore : Run.Along (dictExec (BitVec.ofNat 64)) fits (dictCreate, []) before := by decide
  have hwf := (Represents.create.run before hbefore).1.wf
  have hfits : Run.Along (scanExec (BitVec.ofNat 64)) scanFits
      (Scan.start (Run.run (dictExec (BitVec.ofNat 64)) (dictCreate, []) before).1) ls := by decide
  obtain ⟨hgrowing, hsize⟩ := widens_of_grows ls (by decide) hwf (by decide) hfits
  exact scan_once _ before ls hbefore hfits hgrowing hsize

end

end Redis
