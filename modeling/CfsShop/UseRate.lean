/-
The use rate of `BloomFileter`. `useCount` is kept beside the bits, one more
for each `setTrue`, so it is the number of set bits only as long as no bit is
set twice. `truthful_iff` says when a sequence of calls keeps it so, and when
what it clears had reached the clearing rate: the rate is compared as a
double, and a fraction just below it can round up to it.
-/
import CfsShop.BloomFileter
import CfsShop.Lib.Binary64
import Mathlib.Data.Finset.Card
import Mathlib.Data.Finset.Range
import Mathlib.Data.Finset.Dedup

namespace CfsShop

namespace BloomFileter

open Binary64 (AtMost)

variable {f : BloomFileter} {data : JString}

/-! ## What is expected -/

/-- A filter as it is constructed; its seeds are a Java array. -/
structure Fresh (f : BloomFileter) : Prop where
  size : 0 < f.size
  seeds : f.seeds.length < 2 ^ 31
  notebook : f.notebook = ∅
  useCount : f.useCount = 0

/-- The set bits as a part of all bits, exactly. -/
def fraction (f : BloomFileter) : ℚ := f.notebook.card / f.size.toInt.toNat

/-- The count is the number of set bits; so it lies between 0 and the size, and a filter used to
100% finds every string. -/
structure Counted (f : BloomFileter) : Prop where
  useCount : f.useCount.toInt = f.notebook.card
  nonneg : 0 ≤ f.useCount
  le_size : f.useCount ≤ f.size
  full : 1 ≤ f.getUseRate → ∀ data, (check data).exec f = (.ok true, f)

/-- The state after a call. -/
def called (f : BloomFileter) (c : Call) : BloomFileter := (c.run.exec f).2

/-- The calls that may clear. -/
def Call.inserts? : Call → Bool
  | .add _ | .addIfNotExist _ => true
  | .check _ | .clear => false

/-- If the call clears, the set bits have reached the rate it clears at. -/
def ClearsAtRate (f : BloomFileter) (c : Call) : Prop :=
  c.inserts? → f.needClear → ∀ r ∈ f.autoClearRate, AtMost r.toModel.unpack f.fraction

/-! ## When it holds -/

/-- None of the positions is set, and no two are the same. -/
def Unset (f : BloomFileter) (is : List Nat) : Prop := is.Nodup ∧ ∀ i ∈ is, i ∉ f.notebook

/-- The call sets only bits that are not set. -/
def SetsAnew (f : BloomFileter) : Call → Prop
  | .add data => f.refreshed.Unset (f.positions data)
  | .addIfNotExist data => f.refreshed.Remembers data ∨ f.refreshed.Unset (f.positions data)
  | .check _ | .clear => True

/-- A fraction that became the clearing rate in rounding is not below it. -/
def Unrounded (f : BloomFileter) (c : Call) : Prop :=
  c.inserts? → ∀ r ∈ f.autoClearRate, (r == f.getUseRate) = true → AtMost r.toModel.unpack f.fraction

/-! ## One call -/

/-- What every call keeps, whatever it sets. -/
structure Bounded (f : BloomFileter) : Prop where
  size : 0 < f.size
  seeds : f.seeds.length < 2 ^ 31
  notebook : f.notebook ⊆ Finset.range f.size.toInt.toNat

theorem toInt_size (hsize : 0 < f.size) : 0 < f.size.toInt := by
  simpa using Int32.lt_iff_toInt_lt.1 hsize

theorem position_lt (hsize : 0 < f.size) (data : JString) (seed : Int32) :
    f.position data seed < f.size.toInt.toNat := by
  have hnn := index_nonneg hsize data seed
  have hlt := index_lt hsize data seed
  rw [Int32.lt_iff_toInt_lt] at hnn hlt
  rw [Int32.toInt_zero] at hnn
  rw [position, Int32.toNatClampNeg]
  omega

theorem notebook_marks (f : BloomFileter) (is : List Nat) :
    (f.marks is).notebook = is.toFinset ∪ f.notebook := by
  ext i
  rw [mem_marks, Finset.mem_union, List.mem_toFinset]

theorem useCount_marks (f : BloomFileter) (is : List Nat) :
    (f.marks is).useCount = f.useCount + Int32.ofNat is.length := by
  induction is generalizing f with
  | nil => simp
  | cons i is ih =>
    rw [marks_cons, ih, mark, List.length_cons, Int32.ofNat_add, Int32.add_assoc,
      Int32.add_comm (Int32.ofNat is.length)]
    rfl

/-- Every bit counts exactly where none is set twice. -/
theorem card_marks (f : BloomFileter) (is : List Nat) :
    (f.marks is).notebook.card ≤ f.notebook.card + is.length ∧
      ((f.marks is).notebook.card = f.notebook.card + is.length ↔ f.Unset is) := by
  have hunion := Finset.card_union_add_card_inter is.toFinset f.notebook
  have hlen := is.toFinset_card_le
  have hnodup : is.toFinset.card = is.length ↔ is.Nodup :=
    Multiset.toFinset_card_eq_card_iff_nodup (m := (is : Multiset Nat))
  have hdisj : (is.toFinset ∩ f.notebook).card = 0 ↔ ∀ i ∈ is, i ∉ f.notebook := by
    rw [Finset.card_eq_zero, ← Finset.disjoint_iff_inter_eq_empty, Finset.disjoint_left]
    simp only [List.mem_toFinset]
  rw [notebook_marks, Unset, ← hnodup, ← hdisj]
  omega

theorem Bounded.marks (h : f.Bounded) {is : List Nat} (his : ∀ i ∈ is, i < f.size.toInt.toNat) :
    (f.marks is).Bounded := by
  have ha := f.alike_marks is
  refine ⟨by rw [ha.size]; exact h.size, by rw [ha.seeds]; exact h.seeds, ?_⟩
  rw [ha.size, notebook_marks]
  refine Finset.union_subset (fun i hi => ?_) h.notebook
  exact Finset.mem_range.2 (his i (List.mem_toFinset.1 hi))

theorem Bounded.cleared (h : f.Bounded) : f.cleared.Bounded :=
  ⟨h.size, h.seeds, Finset.empty_subset _⟩

theorem Bounded.refreshed (h : f.Bounded) : f.refreshed.Bounded := by
  unfold BloomFileter.refreshed
  split
  · exact h.cleared
  · exact h

theorem Bounded.positions_lt (h : f.Bounded) (data : JString) :
    ∀ i ∈ f.positions data, i < f.refreshed.size.toInt.toNat := by
  intro i hi
  obtain ⟨seed, -, rfl⟩ := List.mem_map.1 hi
  rw [f.alike_refreshed.size]
  exact position_lt h.size data seed

/-- What a call leaves. -/
theorem called_eq (hsize : 0 < f.size) (c : Call) :
    f.called c = match c with
      | .add data => f.refreshed.marks (f.positions data)
      | .addIfNotExist data =>
        if f.refreshed.Remembers data then f.refreshed
        else f.refreshed.marks (f.positions data)
      | .check _ => f
      | .clear => f.cleared := by
  cases c with
  | add data => rw [called, Call.run, exec_add hsize]
  | addIfNotExist data =>
    simp only [called, Call.run, Prog.exec_bind, exec_addIfNotExist hsize]
    by_cases hd : f.refreshed.Remembers data <;> simp [hd]
  | check data => simp only [called, Call.run, Prog.exec_bind, exec_check hsize, Prog.exec_pure]
  | clear => rfl

theorem Bounded.called (h : f.Bounded) (c : Call) : (f.called c).Bounded := by
  rw [called_eq h.size]
  cases c with
  | add data => exact h.refreshed.marks (h.positions_lt data)
  | addIfNotExist data =>
    dsimp only
    split
    · exact h.refreshed
    · exact h.refreshed.marks (h.positions_lt data)
  | check data => exact h
  | clear => exact h.cleared

/-- The count is the number of set bits. -/
def CountsBits (f : BloomFileter) : Prop := f.useCount.toInt = f.notebook.card

theorem countsBits_cleared (f : BloomFileter) : f.cleared.CountsBits := by
  simp [CountsBits, cleared]

theorem CountsBits.refreshed (h : f.CountsBits) : f.refreshed.CountsBits := by
  unfold BloomFileter.refreshed
  split
  · exact f.countsBits_cleared
  · exact h

/-- Setting bits keeps the count right exactly where none was set before. The count cannot come
right again by overflow: a string has fewer positions than an `int` has values. -/
theorem countsBits_marks_iff (h : f.Bounded) (hc : f.CountsBits) {is : List Nat}
    (his : ∀ i ∈ is, i < f.size.toInt.toNat) (hlen : is.length < 2 ^ 31) :
    (f.marks is).CountsBits ↔ f.Unset is := by
  have hcard := card_marks f is
  have hsize := f.size.toInt_lt
  have hbefore := Finset.card_le_card h.notebook
  have hafter := Finset.card_le_card (h.marks his).notebook
  rw [Finset.card_range] at hbefore
  rw [Finset.card_range, (f.alike_marks is).size] at hafter
  have hcount : (f.marks is).useCount.toInt = ((f.notebook.card : Int) + is.length).bmod (2 ^ 32) := by
    rw [useCount_marks, Int32.toInt_add, hc, Int32.toInt_ofNat_of_lt hlen]
  rw [CountsBits, hcount, ← hcard.2, Int.bmod_def]
  have hle := hcard.1
  split <;> omega

/-- One call keeps the count right exactly where it sets only bits that are not set. -/
theorem countsBits_called_iff (h : f.Bounded) (hc : f.CountsBits) (c : Call) :
    (f.called c).CountsBits ↔ f.SetsAnew c := by
  have hlen : ∀ data, (f.positions data).length < 2 ^ 31 := by
    intro data
    rw [positions, List.length_map]
    exact h.seeds
  have hset := fun data => countsBits_marks_iff h.refreshed hc.refreshed (h.positions_lt data) (hlen data)
  rw [called_eq h.size]
  cases c with
  | add data => exact hset data
  | addIfNotExist data =>
    by_cases hd : f.refreshed.Remembers data
    · simp only [hd, if_true, SetsAnew, true_or, iff_true]
      exact hc.refreshed
    · simp only [hd, if_false, SetsAnew, false_or]
      exact hset data
  | check data => exact iff_of_true hc trivial
  | clear => exact iff_of_true f.countsBits_cleared trivial

/-! ## A right count -/

theorem getUseRate_eq (hc : f.CountsBits) (hsize : 0 < f.size) :
    f.getUseRate = Float.ofNat f.notebook.card / Float.ofNat f.size.toInt.toNat := by
  have hpos := toInt_size hsize
  have hsize' : f.size.toInt = (f.size.toInt.toNat : Int) := by omega
  unfold getUseRate
  rw [hc, hsize']
  rfl

theorem Bounded.card_le (h : f.Bounded) : f.notebook.card ≤ f.size.toInt.toNat := by
  have := Finset.card_le_card h.notebook
  rwa [Finset.card_range] at this

/-- With every bit set, every string is found. -/
theorem Bounded.check_of_full (h : f.Bounded) (hfull : f.size.toInt.toNat ≤ f.notebook.card)
    (data : JString) : (check data).exec f = (.ok true, f) := by
  have hall : f.notebook = Finset.range f.size.toInt.toNat := by
    refine Finset.eq_of_subset_of_card_le h.notebook ?_
    rw [Finset.card_range]
    exact hfull
  have hrem : f.Remembers data := by
    intro i hi
    obtain ⟨seed, -, rfl⟩ := List.mem_map.1 hi
    rw [hall, Finset.mem_range]
    exact position_lt h.size data seed
  rw [exec_check h.size, decide_eq_true hrem]

theorem CountsBits.counted (h : f.Bounded) (hc : f.CountsBits) : f.Counted := by
  have hcard := h.card_le
  have hpos := toInt_size h.size
  have hlt := f.size.toInt_lt
  have hcount : f.useCount.toInt = f.notebook.card := hc
  refine ⟨hc, ?_, ?_, ?_⟩
  · rw [Int32.le_iff_toInt_le, Int32.toInt_zero]
    omega
  · rw [Int32.le_iff_toInt_le]
    omega
  · intro hrate
    rw [getUseRate_eq hc h.size] at hrate
    exact h.check_of_full (Binary64.le_of_one_le_div (by omega) (by omega) (by omega) hrate)

/-- The clearing rate is compared with a rounded fraction: it was reached, or the rounding is to
blame. -/
theorem clearsAtRate_iff (h : f.Bounded) (hc : f.CountsBits) (c : Call) :
    f.ClearsAtRate c ↔ f.Unrounded c := by
  have hcard := h.card_le
  have hpos := toInt_size h.size
  have hlt := f.size.toInt_lt
  unfold ClearsAtRate Unrounded needClear
  cases hr : f.autoClearRate with
  | none => simp
  | some r =>
    simp only [decide_eq_true_iff, Option.mem_def, Option.some.injEq, forall_eq', ge_iff_le]
    rw [getUseRate_eq hc h.size]
    refine forall_congr' fun hins => ?_
    constructor
    · intro hat heq
      exact hat (Binary64.le_of_beq heq)
    · intro hun hle
      exact (Binary64.atMost_of_le_div (by omega) (by omega) (by omega) hle).elim id hun

/-! ## Sequences of calls -/

theorem Fresh.bounded (h : f.Fresh) : f.Bounded :=
  ⟨h.size, h.seeds, by rw [h.notebook]; exact Finset.empty_subset _⟩

theorem Fresh.countsBits (h : f.Fresh) : f.CountsBits := by
  simp [CountsBits, h.notebook, h.useCount]

/-- What is expected of a sequence of calls: the use rate is the fraction of set bits all along,
and a call clears only a filter that has reached the rate to clear at. -/
def Truthful (f : BloomFileter) (cs : List Call) : Prop :=
  Run.Always called Counted f cs ∧ Run.Along called ClearsAtRate f cs

/-- The use rate is the fraction of set bits exactly along the calls that set only bits that are
not set, and that find no fraction rounded up to the clearing rate. -/
theorem truthful_iff (f : BloomFileter) (hf : f.Fresh) (cs : List Call) :
    f.Truthful cs ↔ Run.Along called SetsAnew f cs ∧ Run.Along called Unrounded f cs := by
  have hcounts : Run.Always called CountsBits f cs ↔ Run.Along called SetsAnew f cs :=
    Run.always_iff_along (I := Bounded) (fun _ c h => h.called c)
      (fun _ c h hc => countsBits_called_iff h hc c) hf.bounded hf.countsBits
  have hboth : Run.Along called SetsAnew f cs →
      Run.Always called (fun g => g.Bounded ∧ g.CountsBits) f cs :=
    Run.Along.always (fun _ c h hset => ⟨h.1.called c, (countsBits_called_iff h.1 h.2 c).2 hset⟩)
      ⟨hf.bounded, hf.countsBits⟩
  constructor
  · intro h
    obtain ⟨hcounted, hclears⟩ := h
    have hset := hcounts.1 (hcounted.imp fun _ hg => hg.useCount)
    exact ⟨hset, hclears.imp_of_always (fun _ c hg => (clearsAtRate_iff hg.1 hg.2 c).1) (hboth hset)⟩
  · intro h
    obtain ⟨hset, hun⟩ := h
    exact ⟨(hboth hset).imp fun _ hg => hg.2.counted hg.1,
      hun.imp_of_always (fun _ c hg => (clearsAtRate_iff hg.1 hg.2 c).2) (hboth hset)⟩

/-- One letter in a filter of eight bits. -/
theorem truthful_letter :
    ∃ f, new .VERY_SMALL 2 none = .ok f ∧ f.Fresh ∧ f.Truthful [.add [97]] := by
  obtain ⟨f, hf, hfresh, hset, hrate⟩ : ∃ f, new .VERY_SMALL 2 none = .ok f ∧ f.Fresh ∧
      f.SetsAnew (.add [97]) ∧ f.autoClearRate = none := by
    refine ⟨_, rfl, ⟨by decide, by decide, rfl, rfl⟩, ⟨by decide +kernel, by decide +kernel⟩, rfl⟩
  refine ⟨f, hf, hfresh, (truthful_iff f hfresh [.add [97]]).2 ⟨⟨hset, trivial⟩, ⟨?_, trivial⟩⟩⟩
  simp [Unrounded, hrate]

/-- The same letter twice: eight bits are counted as used and four are set. -/
theorem not_truthful_letter_twice :
    ∃ f, new .VERY_SMALL 2 none = .ok f ∧ f.Fresh ∧ ¬ f.Truthful [.add [97], .add [97]] := by
  refine ⟨_, rfl, ⟨by decide, by decide, rfl, rfl⟩, ?_⟩
  intro h
  exact absurd h.1.2.2.useCount (by decide +kernel)

/-- Sixteen bits of twenty are less than the double that 0.8 stands for, and round to it. -/
example : ((0.8 : Float) == Float.ofNat 16 / Float.ofNat 20) = true ∧
    ¬ AtMost (0.8 : Float).toModel.unpack (16 / 20) := by
  refine ⟨by decide +kernel, ?_⟩
  have hu : (0.8 : Float).toModel.unpack = .finite .positive 7205759403792794 (-53) (by decide) := rfl
  rw [hu]
  norm_num [AtMost]

end BloomFileter

end CfsShop
