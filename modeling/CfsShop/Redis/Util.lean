/-
Numbers and their text in the bundled Redis (util.c).

A value that looks like a number is kept as one, and its text is made again
when it is asked for. That is only right because the reader takes exactly the
texts the writer makes: `string2ll_iff`.

A byte string is a list of characters, a byte being the character with its
code.
-/
import Mathlib.Tactic.Common
import Mathlib.Algebra.Order.Ring.Int
import CfsShop.Lib.Decimal

namespace Redis

def LLONG_MIN : Int := -2 ^ 63

def LLONG_MAX : Int := 2 ^ 63 - 1

def ULLONG_MAX : Nat := 2 ^ 64 - 1

/-! ## Writing -/

/-- The number of digits, by comparisons; twelve of them at a time. -/
def digits10 (v : Nat) : Nat :=
  if v < 10 then 1
  else if v < 100 then 2
  else if v < 1000 then 3
  else if v < 1000000000000 then
    if v < 100000000 then
      if v < 1000000 then
        if v < 10000 then 4
        else 5 + (if v ≥ 100000 then 1 else 0)
      else 7 + (if v ≥ 10000000 then 1 else 0)
    else if v < 10000000000 then 9 + (if v ≥ 1000000000 then 1 else 0)
    else 11 + (if v ≥ 100000000000 then 1 else 0)
  else 12 + digits10 (v / 1000000000000)
termination_by v

/-- The table of two-digit numbers. -/
def digits : List Char :=
  "0001020304050607080910111213141516171819".toList ++
  "2021222324252627282930313233343536373839".toList ++
  "4041424344454647484950515253545556575859".toList ++
  "6061626364656667686970717273747576777879".toList ++
  "8081828384858687888990919293949596979899".toList

/-- From the back of the buffer, two digits a turn, then the last one or two. -/
def writeDigits (value next : Nat) (dst : List Char) : List Char :=
  if 100 ≤ value then
    let i := value % 100 * 2
    writeDigits (value / 100) (next - 2)
      ((dst.set next (digits.getD (i + 1) '0')).set (next - 1) (digits.getD i '0'))
  else if value < 10 then dst.set next (Char.ofNat ('0'.toNat + value))
  else
    let i := value * 2
    (dst.set next (digits.getD (i + 1) '0')).set (next - 1) (digits.getD i '0')
termination_by value

/-- The text, as the bytes of the buffer before the terminator; empty if the buffer is too small. -/
def ll2string (dst : List Char) (svalue : Int) : List Char :=
  let negative := decide (svalue < 0)
  let value := svalue.natAbs
  let length := digits10 value + if negative then 1 else 0
  if dst.length ≤ length then []
  else
    let dst := writeDigits value (length - 1) dst
    (if negative then dst.set 0 '-' else dst).take length

/-! ## Reading -/

/-- The digits after the first: what they make of `v`, and what is left; `none` on overflow. -/
def readDigits : Nat → List Char → Option (Nat × List Char)
  | v, [] => some (v, [])
  | v, c :: cs =>
    if c.isDigit then
      if ULLONG_MAX / 10 < v then none
      else if ULLONG_MAX - (c.toNat - '0'.toNat) < v * 10 then none
      else readDigits (v * 10 + (c.toNat - '0'.toNat)) cs
    else some (v, c :: cs)

def string2ll (s : List Char) : Option Int :=
  if s = [] then none
  -- Special case: first and only digit is 0.
  else if s = ['0'] then some 0
  else
    let negative := s.head? = some '-'
    let p := if negative then s.tail else s
    match p with
    -- Abort on only a negative sign.
    | [] => none
    | c :: cs =>
      -- First digit should be 1-9.
      if '1'.toNat ≤ c.toNat ∧ c.toNat ≤ '9'.toNat then
        match readDigits (c.toNat - '0'.toNat) cs with
        | some (v, []) =>
          if negative then if LLONG_MAX.toNat + 1 < v then none else some (-v)
          else if LLONG_MAX.toNat < v then none
          else some v
        -- Return if not all bytes were used.
        | _ => none
      else if c = '0' ∧ s.length = 1 then some 0
      else none

/-! ## What is written -/

theorem digits_getD : ∀ k : Fin 100, digits.getD (k.val * 2) '0' = Nat.digitChar (k.val / 10) ∧
    digits.getD (k.val * 2 + 1) '0' = Nat.digitChar (k.val % 10) := by
  unfold digits
  dsimp only [String.reduceToList]
  decide +kernel

theorem length_toDigits_div (k : Nat) : ∀ {v : Nat}, 10 ^ k ≤ v →
    (Nat.toDigits 10 v).length = k + (Nat.toDigits 10 (v / 10 ^ k)).length := by
  induction k with
  | zero => simp
  | succ k ih =>
    intro v hv
    have hpos : 0 < 10 ^ k := Nat.pow_pos (by omega)
    have hten : 10 ≤ v := by
      rw [Nat.pow_succ] at hv
      omega
    have hle : 10 ^ k ≤ v / 10 := by
      rw [Nat.le_div_iff_mul_le (by omega), ← Nat.pow_succ]
      exact hv
    rw [Nat.toDigits_of_base_le (by omega) hten, List.length_append, ih hle, Nat.div_div_eq_div_mul,
      ← Nat.pow_succ', Nat.succ_eq_add_one]
    simp only [List.length_singleton]
    omega

/-- The comparisons count the digits. -/
theorem digits10_eq (v : Nat) : digits10 v = (Nat.toDigits 10 v).length := by
  induction v using Nat.strongRecOn with
  | ind v ih =>
    have hlen : ∀ k, 0 < k → ((Nat.toDigits 10 v).length ≤ k ↔ v < 10 ^ k) := fun k hk =>
      Nat.length_toDigits_le_iff (by omega) hk
    have hpos : 0 < (Nat.toDigits 10 v).length := Nat.length_toDigits_pos
    rw [digits10]
    by_cases hbig : v < 1000000000000
    · have h1 := hlen 1 (by omega)
      have h2 := hlen 2 (by omega)
      have h3 := hlen 3 (by omega)
      have h4 := hlen 4 (by omega)
      have h5 := hlen 5 (by omega)
      have h6 := hlen 6 (by omega)
      have h7 := hlen 7 (by omega)
      have h8 := hlen 8 (by omega)
      have h9 := hlen 9 (by omega)
      have h10 := hlen 10 (by omega)
      have h11 := hlen 11 (by omega)
      have h12 := hlen 12 (by omega)
      clear hlen ih
      simp only [Nat.reducePow] at *
      generalize (Nat.toDigits 10 v).length = n at *
      rw [if_pos hbig]
      split_ifs <;> omega
    · have hdiv : (Nat.toDigits 10 v).length = 12 + (Nat.toDigits 10 (v / 1000000000000)).length :=
        length_toDigits_div 12 (by omega)
      have hrec := ih (v / 1000000000000) (by omega)
      rw [if_neg (by omega), if_neg (by omega), if_neg (by omega), if_neg hbig, hrec, hdiv]

/-- Two more digits. -/
theorem toDigits_hundred {v : Nat} (h : 10 ≤ v) :
    Nat.toDigits 10 v = (if v < 100 then [] else Nat.toDigits 10 (v / 100)) ++
      [Nat.digitChar (v % 100 / 10), Nat.digitChar (v % 100 % 10)] := by
  have hlast : v % 10 = v % 100 % 10 := by omega
  have hnext : v / 10 % 10 = v % 100 / 10 := by omega
  have hrest : v / 10 / 10 = v / 100 := by omega
  rw [Nat.toDigits_of_base_le (by omega) h, hlast]
  split
  · next hlt =>
    rw [Nat.toDigits_of_lt_base (by omega), ← hnext, Nat.mod_eq_of_lt (by omega : v / 10 < 10)]
    rfl
  · next hge =>
    rw [Nat.toDigits_of_base_le (by omega) (by omega : 10 ≤ v / 10), hnext, hrest, List.append_assoc]
    rfl

theorem set_two (pre mid post : List Char) (a b x y : Char) :
    ((pre ++ (mid ++ [a, b]) ++ post).set (pre.length + (mid ++ [a, b]).length - 1) y).set
        (pre.length + (mid ++ [a, b]).length - 1 - 1) x =
      pre ++ mid ++ ([x, y] ++ post) := by
  have h1 : pre.length + (mid ++ [a, b]).length - 1 = (pre ++ mid).length + 1 := by simp; omega
  have h2 : (pre ++ mid).length + 1 - 1 = (pre ++ mid).length + 0 := by omega
  have hsplit : pre ++ (mid ++ [a, b]) ++ post = (pre ++ mid) ++ a :: b :: post := by simp
  rw [h1, h2, hsplit, List.set_append_right _ _ (by omega), List.set_append_right _ _ (by omega)]
  simp

theorem exists_last_two {l : List Char} (h : 2 ≤ l.length) : ∃ m a b, l = m ++ [a, b] := by
  rcases List.eq_nil_or_concat l with rfl | ⟨m, b, rfl⟩
  · simp at h
  · rcases List.eq_nil_or_concat m with rfl | ⟨m, a, rfl⟩
    · simp at h
    · exact ⟨m, a, b, by simp⟩

/-- The digits end up where there was room for them. -/
theorem writeDigits_eq (v : Nat) :
    ∀ pre mid post : List Char, mid.length = (Nat.toDigits 10 v).length →
      writeDigits v (pre.length + mid.length - 1) (pre ++ mid ++ post) =
        pre ++ Nat.toDigits 10 v ++ post := by
  induction v using Nat.strongRecOn with
  | ind v ih =>
    intro pre mid post hmid
    rw [writeDigits]
    by_cases hten : 10 ≤ v
    · -- At least two digits: they go into the last two places.
      rw [toDigits_hundred hten] at hmid ⊢
      obtain ⟨mid, a, b, rfl⟩ := exists_last_two (l := mid) (by rw [hmid]; simp)
      split
      · next hge =>
        obtain ⟨hx, hy⟩ := digits_getD ⟨v % 100, by omega⟩
        simp only at hx hy
        have hlen : mid.length = (Nat.toDigits 10 (v / 100)).length := by
          rw [if_neg (by omega)] at hmid
          simpa using hmid
        have hnext : pre.length + (mid ++ [a, b]).length - 1 - 2 = pre.length + mid.length - 1 := by
          simp
          omega
        rw [if_neg (by omega)]
        simp only
        rw [hx, hy, set_two, hnext, ← List.append_assoc pre, ih (v / 100) (by omega) pre mid _ hlen]
        simp
      · next hlt =>
        rw [if_neg (by omega), if_pos (by omega)]
        obtain ⟨hx, hy⟩ := digits_getD ⟨v, by omega⟩
        simp only at hx hy
        have hnil : mid = [] := by
          rw [if_pos (by omega)] at hmid
          simpa using hmid
        subst hnil
        have hmod : v % 100 = v := Nat.mod_eq_of_lt (by omega)
        simp only
        rw [hmod, hx, hy, set_two]
        simp
    · rw [if_neg (by omega), if_pos (by omega), Nat.toDigits_of_lt_base (by omega)]
      rw [Nat.toDigits_of_lt_base (by omega)] at hmid
      obtain ⟨a, rfl⟩ := List.length_eq_one_iff.1 hmid
      have hchar : ∀ d : Fin 10, Char.ofNat ('0'.toNat + d.val) = Nat.digitChar d.val := by decide
      rw [hchar ⟨v, by omega⟩]
      simp

/-- What a number is written as. -/
def decimal (n : Int) : List Char := n.repr.toList

theorem decimal_eq (n : Int) :
    decimal n = (if n < 0 then ['-'] else []) ++ Nat.toDigits 10 n.natAbs := by
  rw [decimal, Decimal.toList_repr]
  cases n with
  | ofNat m => simp
  | negSucc m => simp [Int.negSucc_lt_zero]

theorem exists_parts (l : List Char) {a b : Nat} (h : a + b ≤ l.length) :
    ∃ pre mid post, l = pre ++ mid ++ post ∧ pre.length = a ∧ mid.length = b := by
  refine ⟨l.take a, (l.drop a).take b, (l.drop a).drop b, ?_, ?_, ?_⟩
  · rw [List.append_assoc, List.take_append_drop, List.take_append_drop]
  · rw [List.length_take]
    omega
  · rw [List.length_take, List.length_drop]
    omega

/-- The text is the decimal one, whatever was in the buffer, if the buffer is long enough. -/
theorem ll2string_eq {dst : List Char} {n : Int} (h : (decimal n).length < dst.length) :
    ll2string dst n = decimal n := by
  have hlen : digits10 n.natAbs + (if n < 0 then 1 else 0) = (decimal n).length := by
    rw [digits10_eq, decimal_eq, List.length_append, Nat.add_comm]
    split <;> rfl
  have hpos : 0 < (Nat.toDigits 10 n.natAbs).length := Nat.length_toDigits_pos
  simp only [ll2string, decide_eq_true_eq, hlen, if_neg (Nat.not_le.2 h)]
  rw [decimal_eq, List.length_append] at h ⊢
  obtain ⟨pre, mid, post, rfl, hpre, hmid⟩ := exists_parts dst (Nat.le_of_lt h)
  have hnext : (if n < 0 then ['-'] else []).length + (Nat.toDigits 10 n.natAbs).length - 1 =
      pre.length + mid.length - 1 := by rw [hpre, hmid]
  rw [hnext, writeDigits_eq _ pre mid post hmid]
  split
  · next hneg =>
    rw [if_pos hneg] at hpre
    obtain ⟨c, rfl⟩ := List.length_eq_one_iff.1 hpre
    simp [Nat.add_comm 1]
  · next hneg =>
    rw [if_neg hneg] at hpre
    obtain rfl : pre = [] := List.eq_nil_of_length_eq_zero hpre
    simp

/-! ## What is read -/

theorem le_ofDigitChars (cs : List Char) (v : Nat) : v ≤ Nat.ofDigitChars 10 cs v := by
  rw [Nat.ofDigitChars_eq_ofDigitChars_zero]
  exact Nat.le_trans (Nat.le_mul_of_pos_left v (Nat.pow_pos (by decide))) (Nat.le_add_right _ _)

/-- The digits after a first one, if what they make of it fits. -/
theorem readDigits_eq_some {cs : List Char} {v w : Nat} (hv : v ≤ ULLONG_MAX) :
    readDigits v cs = some (w, []) ↔
      (∀ c ∈ cs, c.isDigit = true) ∧ w = Nat.ofDigitChars 10 cs v ∧ w ≤ ULLONG_MAX := by
  induction cs generalizing v with
  | nil =>
    simp only [readDigits, Option.some.injEq, Prod.mk.injEq, and_true, Nat.ofDigitChars_nil]
    constructor
    · rintro rfl
      exact ⟨by simp, rfl, hv⟩
    · exact fun h => h.2.1.symm
  | cons c cs ih =>
    have hmax : ULLONG_MAX = 18446744073709551615 := rfl
    rw [readDigits, List.forall_mem_cons, Nat.ofDigitChars_cons, Nat.mul_comm 10 v]
    split
    · next hc =>
      have hd : c.toNat - '0'.toNat ≤ 9 := by
        have h9 := (Decimal.isDigit_iff.1 hc).2
        have : '9'.toNat = 57 := rfl
        have : '0'.toNat = 48 := rfl
        omega
      have hle := le_ofDigitChars cs (v * 10 + (c.toNat - '0'.toNat))
      generalize c.toNat - '0'.toNat = d at *
      split
      · constructor
        · exact fun h => nomatch h
        · intro h
          omega
      split
      · constructor
        · exact fun h => nomatch h
        · intro h
          omega
      · rw [ih (by omega)]
        simp [hc]
    · next hc =>
      constructor
      · intro h
        simp at h
      · exact fun h => absurd h.1.1 hc

/-- A number without sign and without leading zeros. -/
def readNumber : List Char → Option Nat
  | [] => none
  | c :: cs =>
    if '1'.toNat ≤ c.toNat ∧ c.toNat ≤ '9'.toNat then
      match readDigits (c.toNat - '0'.toNat) cs with
      | some (v, []) => some v
      | _ => none
    else none

/-- The first digit is not 0. -/
theorem isDigit_of_first {c : Char} (h : '1'.toNat ≤ c.toNat ∧ c.toNat ≤ '9'.toNat) :
    c.isDigit = true ∧ 0 < c.toNat - '0'.toNat ∧ c.toNat - '0'.toNat < 10 := by
  have h0 : '0'.toNat = 48 := rfl
  have h1 : '1'.toNat = 49 := rfl
  have h9 : '9'.toNat = 57 := rfl
  exact ⟨Decimal.isDigit_iff.2 ⟨by omega, h.2⟩, by omega, by omega⟩

theorem first_of_isDigit {c : Char} (h : c.isDigit = true) (hne : c ≠ '0') :
    '1'.toNat ≤ c.toNat ∧ c.toNat ≤ '9'.toNat := by
  obtain ⟨hle, hge⟩ := Decimal.isDigit_iff.1 h
  refine ⟨?_, hge⟩
  rcases Nat.eq_or_lt_of_le hle with heq | hlt
  · exact absurd (Char.toNat_inj.1 heq).symm hne
  · exact hlt

theorem readNumber_eq_some {p : List Char} {v : Nat} :
    readNumber p = some v ↔ 0 < v ∧ v ≤ ULLONG_MAX ∧ p = Nat.toDigits 10 v := by
  constructor
  · intro h
    cases p with
    | nil => exact nomatch h
    | cons c cs =>
      rw [readNumber] at h
      split at h
      · next hfirst =>
        obtain ⟨hc, hpos, hlt⟩ := isDigit_of_first hfirst
        split at h
        · next w hread =>
          obtain rfl := Option.some.inj h
          obtain ⟨hcs, hw, hmax⟩ := (readDigits_eq_some (by rw [ULLONG_MAX]; omega)).1 hread
          have hle := le_ofDigitChars cs (c.toNat - '0'.toNat)
          refine ⟨by omega, hmax, ?_⟩
          rw [hw, Decimal.toDigits_ofDigitChars hcs hpos, Nat.toDigits_of_lt_base hlt,
            Decimal.digitChar_of_isDigit hc, List.singleton_append]
        · exact nomatch h
      · exact nomatch h
  · intro h
    obtain ⟨hpos, hmax, rfl⟩ := h
    obtain ⟨c, cs, heq, hc, hne, hcs⟩ := Decimal.exists_toDigits hpos
    have hfirst := first_of_isDigit hc hne
    obtain ⟨-, -, hlt⟩ := isDigit_of_first hfirst
    have hv : v = Nat.ofDigitChars 10 cs (c.toNat - '0'.toNat) := by
      conv_lhs => rw [← Nat.ofDigitChars_ten_toDigits (n := v), heq, Nat.ofDigitChars_cons]
      rw [Nat.mul_zero, Nat.zero_add]
    have hread : readDigits (c.toNat - '0'.toNat) cs = some (v, []) :=
      (readDigits_eq_some (by rw [ULLONG_MAX]; omega)).2 ⟨hcs, hv, hmax⟩
    rw [heq, readNumber, if_pos hfirst, hread]

/-- The sign, and what of it fits. -/
def withSign (negative : Bool) (v : Nat) : Option Int :=
  if negative then if LLONG_MAX.toNat + 1 < v then none else some (-v)
  else if LLONG_MAX.toNat < v then none
  else some v

/-- Apart from a lone 0, a sign and a number. -/
theorem string2ll_eq {s : List Char} (hzero : s ≠ ['0']) :
    string2ll s = if s.head? = some '-' then (readNumber s.tail).bind (withSign true)
      else (readNumber s).bind (withSign false) := by
  have hlone : ∀ c cs, c = '0' ∧ s.length = 1 → (s = c :: cs ∨ s.tail = c :: cs) → False := by
    intro c cs hc hs
    obtain ⟨x, rfl⟩ := List.length_eq_one_iff.1 hc.2
    rcases hs with hs | hs
    · exact hzero (by rw [(List.cons.inj hs).1, hc.1])
    · exact nomatch hs
  have hnumber : ∀ negative p, (∀ c cs, p = c :: cs → s = c :: cs ∨ s.tail = c :: cs) →
      (match p with
      | [] => none
      | c :: cs =>
        if '1'.toNat ≤ c.toNat ∧ c.toNat ≤ '9'.toNat then
          match readDigits (c.toNat - '0'.toNat) cs with
          | some (v, []) =>
            if negative then if LLONG_MAX.toNat + 1 < v then none else some (-v)
            else if LLONG_MAX.toNat < v then none
            else some (v : Int)
          | _ => none
        else if c = '0' ∧ s.length = 1 then some 0
        else none) = (readNumber p).bind (withSign negative) := by
    intro negative p hp
    cases p with
    | nil => rfl
    | cons c cs =>
      simp only [readNumber]
      split
      · split
        · rfl
        · rfl
      · rw [if_neg fun hc => hlone c cs hc (hp c cs rfl)]
        rfl
  cases s with
  | nil => rfl
  | cons x xs =>
    rw [string2ll, if_neg (List.cons_ne_nil x xs), if_neg hzero]
    simp only
    by_cases hneg : (x :: xs).head? = some '-'
    · rw [if_pos hneg, if_pos hneg, ← hnumber true _ fun c cs h => .inr h]
      simp [hneg]
    · have hx : x ≠ '-' := by simpa using hneg
      rw [if_neg hneg, if_neg hneg, ← hnumber false _ fun c cs h => .inl h]
      simp [hx]

theorem withSign_eq_some {negative : Bool} {v : Nat} {n : Int} (hv : 0 < v) :
    withSign negative v = some n ↔
      (LLONG_MIN ≤ n ∧ n ≤ LLONG_MAX) ∧ (n < 0 ↔ negative = true) ∧ v = n.natAbs := by
  have hmax : LLONG_MAX = 9223372036854775807 := rfl
  have hmin : LLONG_MIN = -9223372036854775808 := rfl
  cases negative with
  | true =>
    simp only [withSign, if_true, hmax, hmin]
    split
    · simp
      omega
    · simp
      omega
  | false =>
    simp only [withSign, Bool.false_eq_true, if_false, hmax, hmin]
    split
    · simp
      omega
    · simp
      omega

theorem decimal_eq_zero {n : Int} : ['0'] = decimal n ↔ n = 0 := by
  constructor
  · intro h
    have hzero : decimal 0 = ['0'] := rfl
    have hrepr : (0 : Int).repr = n.repr := String.toList_inj.1 (hzero.trans h)
    exact (Decimal.toString_injective (by rw [Int.toString_eq_repr, Int.toString_eq_repr, hrepr])).symm
  · rintro rfl
    rfl

theorem head_decimal {n : Int} : (decimal n).head? = some '-' ↔ n < 0 := by
  rw [decimal_eq]
  split
  · next h => simp [h]
  · next h =>
    simp only [List.nil_append, h, iff_false]
    intro hhead
    exact Decimal.minus_not_mem_digits _ (List.mem_of_mem_head? hhead)

/-- What is read as a number is its text, and no other. -/
theorem string2ll_eq_some {s : List Char} {n : Int} :
    string2ll s = some n ↔ (LLONG_MIN ≤ n ∧ n ≤ LLONG_MAX) ∧ s = decimal n := by
  by_cases hzero : s = ['0']
  · subst hzero
    rw [decimal_eq_zero]
    have h0 : string2ll ['0'] = some 0 := rfl
    rw [h0, Option.some.injEq, eq_comm]
    constructor
    · rintro rfl
      exact ⟨by decide, rfl⟩
    · exact fun h => h.2
  rw [string2ll_eq hzero]
  have hmax : LLONG_MAX = 9223372036854775807 := rfl
  have hmin : LLONG_MIN = -9223372036854775808 := rfl
  have hull : ULLONG_MAX = 18446744073709551615 := rfl
  split
  · next hneg =>
    obtain ⟨p, rfl⟩ : ∃ p, s = '-' :: p := List.head?_eq_some_iff.1 hneg
    rw [Option.bind_eq_some_iff, List.tail_cons]
    constructor
    · intro h
      obtain ⟨v, hread, hsign⟩ := h
      obtain ⟨hpos, -, rfl⟩ := readNumber_eq_some.1 hread
      obtain ⟨hrange, hn, rfl⟩ := (withSign_eq_some hpos).1 hsign
      rw [decimal_eq, if_pos (hn.2 rfl)]
      exact ⟨hrange, rfl⟩
    · intro h
      obtain ⟨hrange, hs⟩ := h
      have hn : n < 0 := head_decimal.1 (hs ▸ rfl)
      rw [decimal_eq, if_pos hn, List.singleton_append, List.cons.injEq] at hs
      have hpos : 0 < n.natAbs := by omega
      exact ⟨n.natAbs, readNumber_eq_some.2 ⟨hpos, by omega, hs.2⟩,
        (withSign_eq_some hpos).2 ⟨hrange, by simp [hn], rfl⟩⟩
  · next hneg =>
    rw [Option.bind_eq_some_iff]
    constructor
    · intro h
      obtain ⟨v, hread, hsign⟩ := h
      obtain ⟨hpos, -, rfl⟩ := readNumber_eq_some.1 hread
      obtain ⟨hrange, hn, rfl⟩ := (withSign_eq_some hpos).1 hsign
      rw [decimal_eq, if_neg (by simp [hn])]
      exact ⟨hrange, rfl⟩
    · intro h
      obtain ⟨hrange, rfl⟩ := h
      have hn : ¬ n < 0 := fun hn => hneg (head_decimal.2 hn)
      have hne : n ≠ 0 := fun h0 => hzero (decimal_eq_zero.2 h0).symm
      have hpos : 0 < n.natAbs := by omega
      exact ⟨n.natAbs, readNumber_eq_some.2 ⟨hpos, by omega, by rw [decimal_eq, if_neg hn]; rfl⟩,
        (withSign_eq_some hpos).2 ⟨hrange, by simp [hn], rfl⟩⟩

theorem length_decimal {n : Int} (h : LLONG_MIN ≤ n ∧ n ≤ LLONG_MAX) : (decimal n).length ≤ 20 := by
  have habs : n.natAbs < 10 ^ 19 := by
    rw [LLONG_MIN, LLONG_MAX] at h
    omega
  have hlen := (Nat.length_toDigits_le_iff (b := 10) (k := 19) (by omega) (by omega)).2 habs
  rw [decimal_eq, List.length_append]
  split
  · simp only [List.length_singleton]
    omega
  · simp only [List.length_nil]
    omega

/-- The reader takes exactly the texts the writer makes of the numbers that fit. -/
theorem string2ll_iff (dst : List Char) (hdst : 21 ≤ dst.length) (s : List Char) (n : Int) :
    string2ll s = some n ↔ (LLONG_MIN ≤ n ∧ n ≤ LLONG_MAX) ∧ s = ll2string dst n := by
  rw [string2ll_eq_some]
  refine and_congr_right fun hn => ?_
  have hlen := length_decimal hn
  rw [ll2string_eq (by omega)]

theorem string2ll_iff_42 :
    string2ll ['-', '4', '2'] = some (-42) ↔ (LLONG_MIN ≤ -42 ∧ -42 ≤ LLONG_MAX) ∧
      ['-', '4', '2'] = ll2string (List.replicate 21 '0') (-42) :=
  string2ll_iff (List.replicate 21 '0') (by decide) ['-', '4', '2'] (-42)

end Redis
