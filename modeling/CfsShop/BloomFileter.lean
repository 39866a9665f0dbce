/-
`BloomFileter` (`com.whpu.util.cache`), the home-made Bloom filter: its
constructor, its two insertion loops, the automatic clearing, and what a
sequence of calls leaves behind.

All of `int` is `Int32` here, so products wrap, `%` takes the sign of its left
side and `abs` of the least value is itself, as in Java. The use rate is a
`Float`, Java's `double`; nothing below depends on how it rounds. A string is
its UTF-16 units.

`no_false_negatives` is the point of the file: what was added since the last
clearing is found. The loops differ (one stops looking once a bit is missing),
but either leaves exactly the positions of the string set, and nothing except
a clearing ever takes one back.
-/
import CfsShop.Lib.Prog
import CfsShop.Lib.Run
import Mathlib.Data.Finset.Insert
import Mathlib.Algebra.Order.Ring.Int

namespace CfsShop

/-- A Java string: UTF-16 code units. -/
abbrev JString := List UInt16

inductive MisjudgmentRate
  | VERY_SMALL
  | SMALL
  | MIDDLE
  | HIGH
  deriving DecidableEq, Repr

def MisjudgmentRate.seeds : MisjudgmentRate → List Int32
  | VERY_SMALL => [2, 3, 5, 7]
  | SMALL => [2, 3, 5, 7, 11, 13, 17, 19]
  | MIDDLE => [2, 3, 5, 7, 11, 13, 17, 19, 23, 29, 31, 37, 41, 43, 47, 53]
  | HIGH => [2, 3, 5, 7, 11, 13, 17, 19, 23, 29, 31, 37, 41, 43, 47, 53, 59, 61, 67, 71, 73, 79, 83,
      89, 97, 101, 103, 107, 109, 113, 127, 131]

structure BloomFileter where
  seeds : List Int32
  size : Int32
  /-- The `BitSet`: the indices that are set. -/
  notebook : Finset Nat
  rate : MisjudgmentRate
  useCount : Int32
  autoClearRate : Option Float

namespace BloomFileter

inductive Ex
  /-- `% 0` -/
  | arithmetic
  /-- A `BitSet` asked for a negative index. -/
  | indexOutOfBounds
  | runtime (msg : String)
  deriving DecidableEq, Repr

/-- The constructor. The product is an `int` product, widened afterwards. -/
def new (rate : MisjudgmentRate) (dataCount : Int32) (autoClearRate : Option Float) :
    Except Ex BloomFileter :=
  let bitSize : Int64 := (Int32.ofNat rate.seeds.length * dataCount).toInt64
  if bitSize < 0 ∨ bitSize > Int32.maxValue.toInt64 then
    .error (.runtime "位数太大溢出了，请降低误判率或者降低数据大小")
  else
    .ok
      { seeds := rate.seeds
        size := bitSize.toInt32
        notebook := ∅
        rate
        useCount := 0
        autoClearRate }

abbrev BloomM := Prog Ex BloomFileter

/-- The loop of `hash` from index `i` on. -/
def hashLoop : (i hash : Int32) → JString → Int32
  | _, hash, [] => hash
  | i, hash, c :: value => hashLoop (i + 1) (i * hash + Int32.ofNat c.toNat) value

def hash (data : JString) (seed : Int32) : BloomM Int32 := do
  let size := (← get).size
  if size = 0 then throw .arithmetic
  else return (hashLoop 0 0 data * seed % size).abs

/-- `BitSet.get` -/
def getBit (index : Int32) : BloomM Bool := do
  if index < 0 then throw .indexOutOfBounds
  else return decide (index.toNatClampNeg ∈ (← get).notebook)

def setTrue (index : Int32) : BloomM Unit := do
  modify fun f => { f with useCount := f.useCount + 1 }
  if index < 0 then throw .indexOutOfBounds
  else modify fun f => { f with notebook := insert index.toNatClampNeg f.notebook }

def getUseRate (f : BloomFileter) : Float := Float.ofInt f.useCount.toInt / Float.ofInt f.size.toInt

/-- The test of `checkNeedClear`; with one caller at a time, making it twice is making it once. -/
def needClear (f : BloomFileter) : Bool :=
  match f.autoClearRate with
  | none => false
  | some autoClearRate => decide (f.getUseRate ≥ autoClearRate)

/-- Every bit and the count back to 0. -/
def cleared (f : BloomFileter) : BloomFileter := { f with notebook := ∅, useCount := 0 }

def checkNeedClear : BloomM Unit := modify fun f => if f.needClear then f.cleared else f

def clear : BloomM Unit := modify cleared

def add (data : JString) : BloomM Unit := do
  checkNeedClear
  (← get).seeds.forM fun seed => do setTrue (← hash data seed)

/-- The loop of `check` over the seeds that are left. -/
def checkLoop (data : JString) : List Int32 → BloomM Bool
  | [] => return true
  | seed :: seeds => do
    let index ← hash data seed
    if ← getBit index then checkLoop data seeds else return false

def check (data : JString) : BloomM Bool := do checkLoop data (← get).seeds

/-- The loop of `addIfNotExist` over the seeds that are left. `indexs` is filled so far, and
`exist` says whether every one of them was found set. -/
def addLoop (data : JString) (indexs : List Int32) (exist : Bool) : List Int32 → BloomM Bool
  | [] => return exist
  | seed :: seeds => do
    let index ← hash data seed
    let indexs := indexs ++ [index]
    if exist then
      if ← getBit index then addLoop data indexs true seeds
      else
        -- The indices passed over so far are made up for.
        indexs.forM setTrue
        addLoop data indexs false seeds
    else
      setTrue index
      addLoop data indexs false seeds

def addIfNotExist (data : JString) : BloomM Bool := do
  checkNeedClear
  addLoop data [] true (← get).seeds

/-! ## The positions of a string -/

/-- Where `hash` points. -/
def index (f : BloomFileter) (data : JString) (seed : Int32) : Int32 :=
  (hashLoop 0 0 data * seed % f.size).abs

/-- The same, as the bit that is meant. -/
def position (f : BloomFileter) (data : JString) (seed : Int32) : Nat :=
  (f.index data seed).toNatClampNeg

def positions (f : BloomFileter) (data : JString) : List Nat := f.seeds.map (f.position data)

/-- Every position of the string is set. -/
def Remembers (f : BloomFileter) (data : JString) : Prop := ∀ i ∈ f.positions data, i ∈ f.notebook

instance (f : BloomFileter) (data : JString) : Decidable (f.Remembers data) :=
  inferInstanceAs (Decidable (∀ i ∈ f.positions data, i ∈ f.notebook))

/-- What a filter was made with, which no call changes. -/
structure Alike (f f' : BloomFileter) : Prop where
  seeds : f'.seeds = f.seeds
  size : f'.size = f.size
  autoClearRate : f'.autoClearRate = f.autoClearRate

variable {f f' f'' : BloomFileter} {data : JString} {seed : Int32}

theorem Alike.refl (f : BloomFileter) : Alike f f := ⟨rfl, rfl, rfl⟩

theorem Alike.trans (h : Alike f f') (h' : Alike f' f'') : Alike f f'' :=
  ⟨h'.seeds.trans h.seeds, h'.size.trans h.size, h'.autoClearRate.trans h.autoClearRate⟩

theorem Alike.index (h : Alike f f') (data : JString) (seed : Int32) :
    f'.index data seed = f.index data seed := by
  rw [BloomFileter.index, BloomFileter.index, h.size]

theorem Alike.position (h : Alike f f') (data : JString) : f'.position data = f.position data := by
  funext seed
  rw [BloomFileter.position, BloomFileter.position, h.index]

theorem Alike.positions (h : Alike f f') (data : JString) : f'.positions data = f.positions data := by
  rw [BloomFileter.positions, BloomFileter.positions, h.seeds, h.position]

/-- A remainder is smaller than what it is a remainder of, so its `abs` is not the one that stays
negative. -/
theorem abs_mod (x : Int32) {size : Int32} (hsize : 0 < size) :
    0 ≤ (x % size).abs.toInt ∧ (x % size).abs.toInt < size.toInt := by
  have hpos : 0 < size.toInt := by simpa using Int32.lt_iff_toInt_lt.1 hsize
  have hlt := size.toInt_lt
  have hrem : (x % size).toInt.natAbs < size.toInt.natAbs := by
    rw [Int32.toInt_mod, Int.natAbs_tmod]
    exact Nat.mod_lt _ (by omega)
  have hne : (x % size).toBitVec ≠ BitVec.intMin 32 := by
    intro he
    have hmin : (x % size).toInt = -2147483648 := by
      rw [← Int32.toInt_toBitVec, he]
      decide
    omega
  have habs : (x % size).abs.toInt = ((x % size).toInt.natAbs : Int) := by
    have := BitVec.toInt_abs_eq_natAbs (x := (x % size).toBitVec)
    rw [if_neg hne] at this
    exact this
  omega

theorem index_nonneg (hsize : 0 < f.size) (data : JString) (seed : Int32) :
    ¬ f.index data seed < 0 := by
  have := (abs_mod (hashLoop 0 0 data * seed) hsize).1
  rw [index, Int32.lt_iff_toInt_lt, Int32.toInt_zero]
  omega

theorem index_lt (hsize : 0 < f.size) (data : JString) (seed : Int32) : f.index data seed < f.size := by
  rw [index, Int32.lt_iff_toInt_lt]
  exact (abs_mod _ hsize).2

/-! ## The pieces of a call -/

/-- One bit set, and counted. -/
def mark (f : BloomFileter) (i : Nat) : BloomFileter :=
  { f with useCount := f.useCount + 1, notebook := insert i f.notebook }

/-- Several, in order. -/
def marks (f : BloomFileter) (is : List Nat) : BloomFileter := is.foldl mark f

@[simp] theorem marks_nil (f : BloomFileter) : f.marks [] = f := rfl

@[simp] theorem marks_cons (f : BloomFileter) (i : Nat) (is : List Nat) :
    f.marks (i :: is) = (f.mark i).marks is := rfl

theorem marks_append (f : BloomFileter) (is js : List Nat) :
    f.marks (is ++ js) = (f.marks is).marks js := List.foldl_append

theorem alike_mark (f : BloomFileter) (i : Nat) : Alike f (f.mark i) := ⟨rfl, rfl, rfl⟩

theorem alike_marks (f : BloomFileter) (is : List Nat) : Alike f (f.marks is) := by
  induction is generalizing f with
  | nil => exact .refl f
  | cons i is ih => exact (f.alike_mark i).trans (ih _)

theorem mem_marks {is : List Nat} {i : Nat} : i ∈ (f.marks is).notebook ↔ i ∈ is ∨ i ∈ f.notebook := by
  induction is generalizing f with
  | nil => simp
  | cons j is ih =>
    rw [marks_cons, ih, mark, Finset.mem_insert, List.mem_cons]
    tauto

theorem exec_hash (hsize : 0 < f.size) (data : JString) (seed : Int32) :
    (hash data seed).exec f = (.ok (f.index data seed), f) := by
  have hne : f.size ≠ 0 := by
    intro h
    rw [h] at hsize
    exact absurd hsize (by decide)
  simp only [hash, Prog.exec_bind, Prog.exec_get, if_neg hne, Prog.exec_pure]
  rfl

theorem exec_getBit {index : Int32} (h : ¬ index < 0) :
    (getBit index).exec f = (.ok (decide (index.toNatClampNeg ∈ f.notebook)), f) := by
  simp only [getBit, if_neg h, Prog.exec_bind, Prog.exec_get, Prog.exec_pure]

theorem exec_setTrue {index : Int32} (h : ¬ index < 0) :
    (setTrue index).exec f = (.ok (), f.mark index.toNatClampNeg) := by
  simp only [setTrue, Prog.exec_bind, Prog.exec_modify, if_neg h]
  rfl

theorem exec_forM_setTrue {indexs : List Int32} (h : ∀ index ∈ indexs, ¬ index < 0) :
    (indexs.forM setTrue).exec f = (.ok (), f.marks (indexs.map (·.toNatClampNeg))) := by
  induction indexs generalizing f with
  | nil => rfl
  | cons index indexs ih =>
    rw [List.forall_mem_cons] at h
    rw [List.forM, Prog.exec_bind, exec_setTrue h.1]
    simp only [ih h.2, List.map_cons, marks_cons]

/-! ## The calls -/

/-- What a filter is after `checkNeedClear`. -/
def refreshed (f : BloomFileter) : BloomFileter := if f.needClear then f.cleared else f

theorem exec_checkNeedClear : checkNeedClear.exec f = (.ok (), f.refreshed) := rfl

theorem alike_refreshed (f : BloomFileter) : Alike f f.refreshed := by
  unfold refreshed
  split
  · exact ⟨rfl, rfl, rfl⟩
  · exact .refl f

theorem exec_addSeeds (hsize : 0 < f.size) (data : JString) (seeds : List Int32) :
    (seeds.forM fun seed => do setTrue (← hash data seed)).exec f =
      (.ok (), f.marks (seeds.map (f.position data))) := by
  induction seeds generalizing f with
  | nil => rfl
  | cons seed seeds ih =>
    have hmark := f.alike_mark (f.position data seed)
    have hrest := ih (f := f.mark (f.position data seed)) (by rw [hmark.size]; exact hsize)
    rw [List.forM]
    simp only [Prog.exec_bind, exec_hash hsize, exec_setTrue (index_nonneg hsize _ _)]
    rw [← position, hrest, hmark.position, List.map_cons, marks_cons]

/-- `add` sets the positions of the string and nothing else. -/
theorem exec_add (hsize : 0 < f.size) (data : JString) :
    (add data).exec f = (.ok (), f.refreshed.marks (f.positions data)) := by
  have hsize' : 0 < f.refreshed.size := by rw [f.alike_refreshed.size]; exact hsize
  simp only [add, Prog.exec_bind, exec_checkNeedClear, Prog.exec_get, exec_addSeeds hsize']
  rw [← f.alike_refreshed.positions, positions]

theorem exec_checkLoop (hsize : 0 < f.size) (data : JString) (seeds : List Int32) :
    (checkLoop data seeds).exec f =
      (.ok (decide (∀ i ∈ seeds.map (f.position data), i ∈ f.notebook)), f) := by
  induction seeds with
  | nil => simp [checkLoop]
  | cons seed seeds ih =>
    simp only [checkLoop, Prog.exec_bind, exec_hash hsize, exec_getBit (index_nonneg hsize _ _)]
    rw [← position]
    by_cases hi : f.position data seed ∈ f.notebook
    · simp [hi, ih]
    · simp [hi]

/-- `check` tells whether every position of the string is set. -/
theorem exec_check (hsize : 0 < f.size) (data : JString) :
    (check data).exec f = (.ok (decide (f.Remembers data)), f) := by
  simp only [check, Prog.exec_bind, Prog.exec_get, exec_checkLoop hsize]
  rfl

/-- The loop once a bit was found missing: every further one is set. -/
theorem exec_addLoop_false (hsize : 0 < f.size) (data : JString) (indexs : List Int32)
    (seeds : List Int32) :
    (addLoop data indexs false seeds).exec f =
      (.ok false, f.marks (seeds.map (f.position data))) := by
  induction seeds generalizing f indexs with
  | nil => rfl
  | cons seed seeds ih =>
    have hmark := f.alike_mark (f.position data seed)
    have hrest := ih (f := f.mark (f.position data seed)) (by rw [hmark.size]; exact hsize)
    simp only [addLoop, Prog.exec_bind, exec_hash hsize, Bool.false_eq_true, if_false,
      exec_setTrue (index_nonneg hsize _ _)]
    rw [← position, hrest, hmark.position, List.map_cons, marks_cons]

/-- The loop while every bit was found set: it leaves the filter alone, or sets what it has passed
and what is to come. -/
theorem exec_addLoop_true (hsize : 0 < f.size) (data : JString) (seen seeds : List Int32) :
    (addLoop data (seen.map (f.index data)) true seeds).exec f =
      if ∀ i ∈ seeds.map (f.position data), i ∈ f.notebook then (.ok true, f)
      else (.ok false, f.marks ((seen ++ seeds).map (f.position data))) := by
  induction seeds generalizing seen with
  | nil => simp [addLoop]
  | cons seed seeds ih =>
    have hsnoc : seen.map (f.index data) ++ [f.index data seed] = (seen ++ [seed]).map (f.index data) := by
      rw [List.map_append, List.map_singleton]
    simp only [addLoop, Prog.exec_bind, exec_hash hsize, if_true,
      exec_getBit (index_nonneg hsize _ _)]
    rw [← position, hsnoc]
    by_cases hi : f.position data seed ∈ f.notebook
    · simp only [hi, decide_true, if_true, ih (seen ++ [seed])]
      simp [hi]
    · have hall : ∀ index ∈ (seen ++ [seed]).map (f.index data), ¬ index < 0 := by
        intro index hindex
        obtain ⟨seed', -, rfl⟩ := List.mem_map.1 hindex
        exact index_nonneg hsize data seed'
      have hpos : ((seen ++ [seed]).map (f.index data)).map (·.toNatClampNeg) =
          (seen ++ [seed]).map (f.position data) := by
        rw [List.map_map]
        rfl
      have hmarks := f.alike_marks ((seen ++ [seed]).map (f.position data))
      have hsize' : 0 < (f.marks ((seen ++ [seed]).map (f.position data))).size := by
        rw [hmarks.size]
        exact hsize
      have hnot : ¬ ∀ i ∈ (seed :: seeds).map (f.position data), i ∈ f.notebook := by simp [hi]
      simp only [hi, decide_false, Bool.false_eq_true, if_false, Prog.exec_bind,
        exec_forM_setTrue hall, hpos, exec_addLoop_false hsize', if_neg hnot]
      rw [hmarks.position, ← marks_append, ← List.map_append, List.append_assoc]
      rfl

/-- `addIfNotExist` sets the positions of the string, unless they are set already. -/
theorem exec_addIfNotExist (hsize : 0 < f.size) (data : JString) :
    (addIfNotExist data).exec f =
      if f.refreshed.Remembers data then (.ok true, f.refreshed)
      else (.ok false, f.refreshed.marks (f.positions data)) := by
  have hsize' : 0 < f.refreshed.size := by rw [f.alike_refreshed.size]; exact hsize
  have hloop := exec_addLoop_true hsize' data [] f.refreshed.seeds
  simp only [addIfNotExist, Prog.exec_bind, exec_checkNeedClear, Prog.exec_get]
  rw [List.map_nil] at hloop
  rw [hloop, ← f.alike_refreshed.positions]
  rfl

/-- `addIfNotExist` is `check`, then `add`: after the clearing, if there is one, it answers what
`check` answers, and it leaves the bits that `add` leaves. A string that is there already changes
nothing. -/
theorem addIfNotExist_check_add (f : BloomFileter) (hsize : 0 < f.size) (data : JString) :
    let s := (checkNeedClear.exec f).2
    let (answer, after) := (addIfNotExist data).exec f
    answer = ((check data).exec s).1 ∧ after.notebook = ((add data).exec f).2.notebook ∧
      (answer = .ok true → after.notebook = s.notebook ∧ after.useCount = s.useCount) := by
  have hsize' : 0 < f.refreshed.size := by rw [f.alike_refreshed.size]; exact hsize
  simp only [exec_checkNeedClear, exec_addIfNotExist hsize, exec_check hsize', exec_add hsize]
  by_cases hd : f.refreshed.Remembers data
  · -- Every bit was set, so `add` sets none anew.
    have hsame : (f.refreshed.marks (f.positions data)).notebook = f.refreshed.notebook := by
      ext i
      rw [mem_marks, or_iff_right_of_imp]
      intro hi
      rw [← f.alike_refreshed.positions] at hi
      exact hd i hi
    simp [hd, hsame]
  · simp [hd]

/-- A filter for two strings, and a letter. -/
theorem addIfNotExist_check_add_letter :
    ∃ f, new .VERY_SMALL 2 none = .ok f ∧ 0 < f.size ∧
      ((addIfNotExist [97]).exec f).1 = ((check [97]).exec (checkNeedClear.exec f).2).1 := by
  obtain ⟨f, hf, hsize⟩ : ∃ f, new .VERY_SMALL 2 none = .ok f ∧ 0 < f.size := ⟨_, rfl, by decide⟩
  exact ⟨f, hf, hsize, (addIfNotExist_check_add f hsize [97]).1⟩

/-! ## The size -/

/-- The number of bits asked for, over the integers. -/
def askedSize (rate : MisjudgmentRate) (dataCount : Int32) : Int :=
  rate.seeds.length * dataCount.toInt

/-- Every call returns on every string, and `hash` points into the bits. -/
def Usable (f : BloomFileter) : Prop :=
  ∀ data : JString, ((add data).exec f).1 = .ok () ∧
    (∃ found, ((check data).exec f).1 = .ok found) ∧
    (∃ found, ((addIfNotExist data).exec f).1 = .ok found) ∧
    ∀ seed, ∃ i : Int32, ((hash data seed).exec f).1 = .ok i ∧ 0 ≤ i ∧ i < f.size

theorem usable_of_size (hsize : 0 < f.size) : f.Usable := by
  intro data
  refine ⟨by rw [exec_add hsize], ⟨_, by rw [exec_check hsize]⟩, ?_, ?_⟩
  · rw [exec_addIfNotExist hsize]
    split
    · exact ⟨true, rfl⟩
    · exact ⟨false, rfl⟩
  · intro seed
    refine ⟨f.index data seed, by rw [exec_hash hsize], ?_, index_lt hsize data seed⟩
    exact Int32.not_lt.1 (index_nonneg hsize data seed)

/-- With no bits at all, `% size` throws. -/
theorem not_usable_of_size (hsize : f.size = 0) : ¬ f.Usable := by
  intro h
  obtain ⟨i, hi, -⟩ := (h []).2.2.2 0
  simp [hash, Prog.exec_bind, Prog.exec_get, hsize] at hi

/-- The guard only ever sees the sign of the wrapped product. -/
theorem new_eq (rate : MisjudgmentRate) (dataCount : Int32) (autoClearRate : Option Float) :
    new rate dataCount autoClearRate =
      if Int32.ofNat rate.seeds.length * dataCount < 0 then
        .error (.runtime "位数太大溢出了，请降低误判率或者降低数据大小")
      else
        .ok ⟨rate.seeds, Int32.ofNat rate.seeds.length * dataCount, ∅, rate, 0, autoClearRate⟩ := by
  generalize hw : Int32.ofNat rate.seeds.length * dataCount = w
  have hle := w.toInt_lt
  have hneg : w.toInt64 < 0 ↔ w < 0 := by
    rw [Int64.lt_iff_toInt_lt, Int32.lt_iff_toInt_lt, Int32.toInt_toInt64]
    simp
  have hmax : ¬ w.toInt64 > Int32.maxValue.toInt64 := by
    have hmax : Int32.maxValue.toInt = 2147483647 := by decide
    rw [gt_iff_lt, Int64.lt_iff_toInt_lt, Int32.toInt_toInt64, Int32.toInt_toInt64]
    omega
  unfold new
  simp only [hw, hneg, hmax, or_false, Int32.toInt32_toInt64]

theorem toInt_product (rate : MisjudgmentRate) (dataCount : Int32) :
    (Int32.ofNat rate.seeds.length * dataCount).toInt = (askedSize rate dataCount).bmod (2 ^ 32) := by
  have hn : (Int32.ofNat rate.seeds.length).toInt = rate.seeds.length := by cases rate <;> rfl
  rw [Int32.toInt_mul, hn, askedSize]

/-- What is expected of the constructor: where the size asked for is no `int` it throws, and a
filter that it returns has that size and can be used. -/
def Delivers (rate : MisjudgmentRate) (dataCount : Int32) (autoClearRate : Option Float) : Prop :=
  (askedSize rate dataCount < 0 ∨ Int32.maxValue.toInt < askedSize rate dataCount →
      ∃ ex, new rate dataCount autoClearRate = .error ex) ∧
    ∀ f, new rate dataCount autoClearRate = .ok f →
      f.size.toInt = askedSize rate dataCount ∧ f.Usable

/-- When the constructor delivers: where the size asked for is positive and an `int`, and where its
low 32 bits start with a 1, so that the guard sees a negative product and throws. -/
theorem new_delivers_iff (rate : MisjudgmentRate) (dataCount : Int32)
    (autoClearRate : Option Float) :
    Delivers rate dataCount autoClearRate ↔
      (0 < askedSize rate dataCount ∧ askedSize rate dataCount < 2 ^ 31) ∨
        2 ^ 31 ≤ askedSize rate dataCount % 2 ^ 32 := by
  have hmax : Int32.maxValue.toInt = 2147483647 := by decide
  have hw := toInt_product rate dataCount
  unfold Delivers
  rw [new_eq]
  generalize Int32.ofNat rate.seeds.length * dataCount = w at hw ⊢
  generalize askedSize rate dataCount = n at hw ⊢
  have hwrap : w.toInt = if n % 2 ^ 32 < 2 ^ 31 then n % 2 ^ 32 else n % 2 ^ 32 - 2 ^ 32 := by
    rw [hw, Int.bmod_def]
    rfl
  have hsign : w < 0 ↔ w.toInt < 0 := by rw [Int32.lt_iff_toInt_lt, Int32.toInt_zero]
  by_cases hneg : w < 0
  · -- The constructor throws.
    have := hsign.1 hneg
    simp only [hneg, if_true, reduceCtorEq, false_implies, implies_true, and_true]
    constructor
    · intro _
      right
      omega
    · intro _ _
      exact ⟨_, rfl⟩
  · have hnn := mt hsign.2 hneg
    simp only [hneg, if_false, reduceCtorEq, exists_false, Except.ok.injEq, forall_eq']
    constructor
    · intro ⟨hguard, hsize, huse⟩
      have hne : w ≠ 0 := fun h => not_usable_of_size h huse
      rw [← Int32.toInt_inj.ne, Int32.toInt_zero] at hne
      left
      omega
    · intro hcond
      have hpos : 0 < w.toInt := by omega
      refine ⟨by omega, by omega, usable_of_size ?_⟩
      rw [Int32.lt_iff_toInt_lt, Int32.toInt_zero]
      exact hpos

/-- A quarter of 2^32, and four more, asks for 16 bits more than 2^32 and gets 16. -/
theorem not_delivers_wrapped : ¬ Delivers .VERY_SMALL 1073741828 none := by
  rw [Delivers, new_eq]
  intro h
  have := (h.2 _ rfl).1
  exact absurd this (by decide)

/-! ## Sequences of calls -/

inductive Call
  | add (data : JString)
  | addIfNotExist (data : JString)
  | check (data : JString)
  | clear

/-- The call; what it answers does not matter here. -/
def Call.run : Call → BloomM Unit
  | .add data => BloomFileter.add data
  | .addIfNotExist data => do let _ ← BloomFileter.addIfNotExist data
  | .check data => do let _ ← BloomFileter.check data
  | .clear => BloomFileter.clear

/-- A filter in use, with the strings passed to it since the most recent clearing. -/
structure InUse where
  filter : BloomFileter
  since : List JString

namespace InUse

/-- One call. An insertion that clears forgets what came before it, not what it inserts. -/
def call (u : InUse) (c : Call) : InUse where
  filter := (c.run.exec u.filter).2
  since := match c with
    | .add data | .addIfNotExist data => (if u.filter.needClear then [] else u.since) ++ [data]
    | .check _ => u.since
    | .clear => []

/-- Everything passed since is remembered, in a filter that has bits. -/
structure Sound (u : InUse) : Prop where
  size : 0 < u.filter.size
  remembers : ∀ data ∈ u.since, u.filter.Remembers data

end InUse

theorem remembers_marks (f : BloomFileter) (data : JString) :
    (f.marks (f.positions data)).Remembers data := by
  intro i hi
  rw [(f.alike_marks _).positions] at hi
  exact mem_marks.2 (.inl hi)

/-- Setting bits forgets nothing. -/
theorem Remembers.marks (h : f.Remembers data) (is : List Nat) : (f.marks is).Remembers data := by
  intro i hi
  rw [(f.alike_marks _).positions] at hi
  exact mem_marks.2 (.inr (h i hi))

/-- Either insertion leaves a filter alike that remembers the string, and what it remembered
after the clearing, if there was one. -/
theorem Call.inserts {c : Call} (hc : c = .add data ∨ c = .addIfNotExist data) (hsize : 0 < f.size) :
    ∃ f', c.run.exec f = (.ok (), f') ∧ Alike f f' ∧ f'.Remembers data ∧
      ∀ d, f.refreshed.Remembers d → f'.Remembers d := by
  have hr := f.alike_refreshed
  have hset : Alike f (f.refreshed.marks (f.positions data)) ∧
      (f.refreshed.marks (f.positions data)).Remembers data ∧
      ∀ d, f.refreshed.Remembers d → (f.refreshed.marks (f.positions data)).Remembers d := by
    refine ⟨hr.trans (alike_marks _ _), ?_, fun d hd => hd.marks _⟩
    rw [← hr.positions]
    exact remembers_marks _ data
  rcases hc with rfl | rfl
  · exact ⟨_, exec_add hsize data, hset⟩
  · simp only [Call.run, Prog.exec_bind, exec_addIfNotExist hsize]
    by_cases hd : f.refreshed.Remembers data
    · rw [if_pos hd]
      exact ⟨_, rfl, hr, hd, fun _ h => h⟩
    · rw [if_neg hd]
      exact ⟨_, rfl, hset⟩

namespace InUse

variable {u : InUse}

theorem Sound.inserts (h : Sound u) {c : Call} {data : JString}
    (hc : c = .add data ∨ c = .addIfNotExist data)
    (hs : (u.call c).since = (if u.filter.needClear then [] else u.since) ++ [data]) :
    (c.run.exec u.filter).1 = .ok () ∧ Sound (u.call c) := by
  obtain ⟨f', he, hf, hd, hkeep⟩ := Call.inserts hc h.size
  have hcall : (u.call c).filter = f' := congrArg Prod.snd he
  refine ⟨by rw [he], ?_, ?_⟩
  · rw [hcall, hf.size]
    exact h.size
  · rw [hs, hcall]
    intro d hmem
    rcases List.mem_append.1 hmem with hmem | hmem
    · -- What is left over from before was not cleared away.
      cases hn : u.filter.needClear with
      | true => simp [hn] at hmem
      | false =>
        rw [hn] at hmem
        refine hkeep d ?_
        rw [refreshed, hn]
        exact h.remembers d hmem
    · rw [List.mem_singleton] at hmem
      rw [hmem]
      exact hd

/-- Whatever is called, it returns, and what is to be remembered is. -/
theorem Sound.call (h : Sound u) (c : Call) :
    (c.run.exec u.filter).1 = .ok () ∧ Sound (u.call c) := by
  cases c with
  | add data => exact h.inserts (.inl rfl) rfl
  | addIfNotExist data => exact h.inserts (.inr rfl) rfl
  | check data =>
    have he : ((Call.check data).run.exec u.filter) = (.ok (), u.filter) := by
      simp only [Call.run, Prog.exec_bind, exec_check h.size, Prog.exec_pure]
    refine ⟨by rw [he], ?_, ?_⟩
    · rw [InUse.call, he]
      exact h.size
    · rw [InUse.call, he]
      exact h.remembers
  | clear => exact ⟨rfl, h.size, by simp [InUse.call]⟩

theorem Sound.after (h : Sound u) (cs : List Call) : Sound (Run.run InUse.call u cs) :=
  Run.run_invariant (fun _ c hu => (hu.call c).2) u cs h

end InUse

/-- **No false negatives.** Take a filter with at least one bit, any seeds and any clearing
rate, and any calls on it, all of which return. Then `check` answers true for every
string passed to `add` or `addIfNotExist` since the most recent clearing; and right after a
call that adds a string it answers true for it, also where that call cleared the filter. -/
theorem no_false_negatives (f : BloomFileter) (hsize : 0 < f.size) (cs : List Call) :
    let u := Run.run InUse.call ⟨f, []⟩ cs
    (∀ c : Call, (c.run.exec u.filter).1 = .ok ()) ∧
      (∀ data ∈ u.since, (check data).exec u.filter = (.ok true, u.filter)) ∧
      ∀ c data, c = .add data ∨ c = .addIfNotExist data →
        (check data).exec (u.call c).filter = (.ok true, (u.call c).filter) := by
  intro u
  have hstart : InUse.Sound ⟨f, []⟩ := ⟨hsize, by simp⟩
  have hu : InUse.Sound u := hstart.after cs
  have hfound : ∀ v : InUse, v.Sound → ∀ data ∈ v.since,
      (check data).exec v.filter = (.ok true, v.filter) := by
    intro v hv data hmem
    rw [exec_check hv.size, decide_eq_true (hv.remembers data hmem)]
  refine ⟨fun c => (hu.call c).1, hfound u hu, ?_⟩
  intro c data hc
  refine hfound _ (hu.call c).2 data ?_
  rcases hc with rfl | rfl <;> simp [InUse.call]

/-- A filter for two strings, and three calls on it. -/
theorem no_false_negatives_of_three :
    ∃ f, new .VERY_SMALL 2 none = .ok f ∧ 0 < f.size ∧
      let u := Run.run InUse.call ⟨f, []⟩ [.add [97], .clear, .addIfNotExist [98, 99]]
      u.since = [[98, 99]] ∧ (check [98, 99]).exec u.filter = (.ok true, u.filter) := by
  obtain ⟨f, hf, hsize⟩ : ∃ f, new .VERY_SMALL 2 none = .ok f ∧ 0 < f.size := ⟨_, rfl, by decide⟩
  have hsince : (Run.run InUse.call ⟨f, []⟩ [.add [97], .clear, .addIfNotExist [98, 99]]).since =
      [[98, 99]] := by simp [Run.run, InUse.call]
  refine ⟨f, hf, hsize, hsince, ?_⟩
  exact (no_false_negatives f hsize [.add [97], .clear, .addIfNotExist [98, 99]]).2.1 _
    (by rw [hsince]; exact List.mem_singleton.2 rfl)

end BloomFileter

end CfsShop
