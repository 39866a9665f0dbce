/-
dictScan: going over a dictionary in many calls, between which it may change,
with nothing kept between them but a cursor.

The cursor is incremented from its highest bit down, so in the order of the
reversed words it only moves up, over buckets of whatever size the smaller
table has at each call. That is the whole argument for completeness and for
termination. It has one gap, in the calls during a rehashing: the loop over
the larger table goes on from the cursor's own bits between the two masks, and
a cursor that was given out by a larger table may have some. `Aligned` says it
has none.
-/
import CfsShop.Redis.DictMap

namespace Redis

variable {κ ν : Type}

/-! ## rev -/

/-- `((v >> s) & mask) | ((v << s) & ~mask)`. -/
def revSwap (mask : BitVec 64) (s : Nat) (v : BitVec 64) : BitVec 64 :=
  ((v >>> s) &&& mask) ||| ((v <<< s) &&& ~~~mask)

/-- One turn of the loop, on `mask` and `v`. -/
def revTurn (p : BitVec 64 × BitVec 64) (s : Nat) : BitVec 64 × BitVec 64 :=
  let mask := p.1 ^^^ (p.1 <<< s)
  (mask, revSwap mask s p.2)

/-- Reverses the bits. `s` goes from half the width down to 1. -/
def rev (v : BitVec 64) : BitVec 64 := ([32, 16, 8, 4, 2, 1].foldl revTurn (BitVec.allOnes 64, v)).2

/-- A mask that has the bits whose index lacks `s`. -/
def SwapsBy (mask : BitVec 64) (s : Nat) : Prop :=
  ∀ i : Fin 64, (i.val ^^^ s) < 64 ∧
    if mask.getLsbD i then i.val ^^^ s = s + i.val else s ≤ i.val ∧ i.val ^^^ s = i.val - s

instance (mask : BitVec 64) (s : Nat) : Decidable (SwapsBy mask s) :=
  inferInstanceAs (Decidable (∀ i : Fin 64, (i.val ^^^ s) < 64 ∧
    if mask.getLsbD i then i.val ^^^ s = s + i.val else s ≤ i.val ∧ i.val ^^^ s = i.val - s))

theorem SwapsBy.lt {mask : BitVec 64} {s : Nat} (h : SwapsBy mask s) {i : Nat} (hi : i < 64) :
    (i ^^^ s) < 64 := (h ⟨i, hi⟩).1

/-- With such a mask the bits whose indices differ in `s` change places. -/
theorem SwapsBy.getLsbD {mask : BitVec 64} {s : Nat} (h : SwapsBy mask s) (v : BitVec 64) {i : Nat}
    (hi : i < 64) : (revSwap mask s v).getLsbD i = v.getLsbD (i ^^^ s) := by
  obtain ⟨-, hbit⟩ := h ⟨i, hi⟩
  rw [revSwap, BitVec.getLsbD_or, BitVec.getLsbD_and, BitVec.getLsbD_and, BitVec.getLsbD_not,
    BitVec.getLsbD_ushiftRight, BitVec.getLsbD_shiftLeft]
  split at hbit
  · next hm =>
    simp only at hm hbit
    rw [hm, hbit, Bool.and_true, Bool.not_true, Bool.and_false, Bool.and_false, Bool.or_false]
  · next hm =>
    have hm : mask.getLsbD i = false := by simpa using hm
    obtain ⟨hle, heq⟩ := hbit
    rw [hm, heq, decide_eq_true hi, decide_eq_false (Nat.not_lt.2 hle)]
    simp

theorem revTurn_eq {mask m : BitVec 64} {s : Nat} (h : mask ^^^ (mask <<< s) = m) (v : BitVec 64) :
    revTurn (mask, v) s = (m, revSwap m s v) := by
  subst h
  rfl

theorem rev_swaps (v : BitVec 64) :
    rev v = revSwap 0x5555555555555555#64 1 (revSwap 0x3333333333333333#64 2
      (revSwap 0x0F0F0F0F0F0F0F0F#64 4 (revSwap 0x00FF00FF00FF00FF#64 8
        (revSwap 0x0000FFFF0000FFFF#64 16 (revSwap 0x00000000FFFFFFFF#64 32 v))))) := by
  rw [rev, List.foldl_cons, revTurn_eq (m := 0x00000000FFFFFFFF#64) (by decide),
    List.foldl_cons, revTurn_eq (m := 0x0000FFFF0000FFFF#64) (by decide),
    List.foldl_cons, revTurn_eq (m := 0x00FF00FF00FF00FF#64) (by decide),
    List.foldl_cons, revTurn_eq (m := 0x0F0F0F0F0F0F0F0F#64) (by decide),
    List.foldl_cons, revTurn_eq (m := 0x3333333333333333#64) (by decide),
    List.foldl_cons, revTurn_eq (m := 0x5555555555555555#64) (by decide), List.foldl_nil]

theorem rev_eq (v : BitVec 64) : rev v = v.reverse := by
  have h1 : SwapsBy 0x5555555555555555#64 1 := by decide
  have h2 : SwapsBy 0x3333333333333333#64 2 := by decide
  have h4 : SwapsBy 0x0F0F0F0F0F0F0F0F#64 4 := by decide
  have h8 : SwapsBy 0x00FF00FF00FF00FF#64 8 := by decide
  have h16 : SwapsBy 0x0000FFFF0000FFFF#64 16 := by decide
  have h32 : SwapsBy 0x00000000FFFFFFFF#64 32 := by decide
  have hflip : ∀ j : Fin 64, j.val ^^^ 1 ^^^ 2 ^^^ 4 ^^^ 8 ^^^ 16 ^^^ 32 = 63 - j.val := by decide
  apply BitVec.eq_of_getLsbD_eq
  intro i hi
  have i1 := h1.lt hi
  have i2 := h2.lt i1
  have i4 := h4.lt i2
  have i8 := h8.lt i4
  have i16 := h16.lt i8
  rw [rev_swaps, h1.getLsbD _ hi, h2.getLsbD _ i1, h4.getLsbD _ i2, h8.getLsbD _ i4, h16.getLsbD _ i8,
    h32.getLsbD _ i16, hflip ⟨i, hi⟩, BitVec.getLsbD_reverse, BitVec.getMsbD]
  simp [hi]

/-! ## One call -/

/-- `v |= ~m0; v = rev(v); v++; v = rev(v)`. -/
def scanNext (m0 v : BitVec 64) : BitVec 64 := rev (rev (v ||| ~~~m0) + 1)

/-- `v = (((v | m0) + 1) & ~m0) | (v & m0)`: the bits not covered by the smaller mask go up by 1. -/
def scanBump (m0 v : BitVec 64) : BitVec 64 := (((v ||| m0) + 1) &&& ~~~m0) ||| (v &&& m0)

/-- The loop over the larger table, which also moves `v`. It ends within as many turns as the table
has buckets. -/
def scanExpansions (t1 : Dictht κ ν) (m0 : BitVec 64) :
    (fuel : Nat) → (v : BitVec 64) → List (κ × ν) × BitVec 64
  | 0, v => ([], v)
  | fuel + 1, v =>
    let es := t1.chain (v &&& t1.sizemask).toNat
    let v := scanBump m0 v
    if v &&& (m0 ^^^ t1.sizemask) = 0 then (es, v)
    else
      let (rest, v) := scanExpansions t1 m0 fuel v
      (es ++ rest, v)

/-- The smaller table first, while there are two. -/
def Dict.scanTables (d : Dict κ ν) : Dictht κ ν × Dictht κ ν :=
  if d.ht1.size < d.ht0.size then (d.ht1, d.ht0) else (d.ht0, d.ht1)

/-- The entries the call hands out, and the cursor for the next. -/
def dictScan (d : Dict κ ν) (v : BitVec 64) : List (κ × ν) × BitVec 64 :=
  if dictSize d = 0 then ([], 0)
  else if !d.isRehashing then
    (d.ht0.chain (v &&& d.ht0.sizemask).toNat, scanNext d.ht0.sizemask v)
  else
    let (t0, t1) := d.scanTables
    let m0 := t0.sizemask
    let (es, v') := scanExpansions t1 m0 t1.size v
    (t0.chain (v &&& m0).toNat ++ es, scanNext m0 v')

/-! ### Bits under and over the smaller mask -/

section
variable {j k : Nat}

theorem scanNext_eq (v : BitVec 64) : scanNext (Cursor.mask 64 k) v = Cursor.next k v := by
  rw [scanNext, rev_eq, rev_eq, Cursor.next]

/-- A word that is a multiple of the mask's size is not touched by clearing the mask. -/
theorem and_not_mask {x : BitVec 64} {c : Nat} (hj : j ≤ 64) (h : x.toNat = 2 ^ j * c) :
    x &&& ~~~Cursor.mask 64 j = x := by
  apply BitVec.eq_of_getLsbD_eq
  intro i hi
  rw [BitVec.getLsbD_and, BitVec.getLsbD_not, Cursor.getLsbD_mask hj, ← BitVec.testBit_toNat, h,
    Nat.testBit_two_pow_mul]
  by_cases hij : i < j
  · simp [hij]
  · simp [hij, hi]

theorem toNat_or_mask (hj : j ≤ 64) (v : BitVec 64) :
    (v ||| Cursor.mask 64 j).toNat = 2 ^ j * (v.toNat / 2 ^ j) + (2 ^ j - 1) := by
  have hpos : 0 < 2 ^ j := Nat.two_pow_pos j
  rw [BitVec.toNat_or, Cursor.toNat_mask hj, Nat.two_pow_add_eq_or_of_lt (by omega)]
  apply Nat.eq_of_testBit_eq
  intro i
  rw [Nat.testBit_or, Nat.testBit_or, Nat.testBit_two_pow_sub_one, Nat.testBit_two_pow_mul,
    Nat.testBit_div_two_pow]
  by_cases hij : i < j
  · simp [hij]
  · have hback : i - j + j = i := by omega
    simp [hij, hback, Nat.not_lt.1 hij]

theorem toNat_scanBump (hj : j ≤ 64) (v : BitVec 64) :
    (scanBump (Cursor.mask 64 j) v).toNat = (v.toNat + 2 ^ j) % 2 ^ 64 := by
  have hpos : 0 < 2 ^ j := Nat.two_pow_pos j
  have hpow : 2 ^ 64 = 2 ^ j * 2 ^ (64 - j) := by rw [← Nat.pow_add, Nat.add_sub_cancel' hj]
  have hup : ((v ||| Cursor.mask 64 j) + 1).toNat = 2 ^ j * ((v.toNat / 2 ^ j + 1) % 2 ^ (64 - j)) := by
    have hone : (1 : BitVec 64).toNat = 1 := rfl
    rw [BitVec.toNat_add, toNat_or_mask hj, hone, Nat.add_assoc, Nat.sub_add_cancel hpos, hpow,
      ← Nat.mul_succ, Nat.mul_mod_mul_left]
  rw [scanBump, and_not_mask hj hup, BitVec.toNat_or, hup, Cursor.toNat_and_mask v hj,
    ← Nat.two_pow_add_eq_or_of_lt (Nat.mod_lt _ hpos), hpow, Nat.mod_mul, Nat.add_mod_right,
    Nat.add_div_right _ hpos, Nat.add_comm]

theorem scanNext_congr {v v' : BitVec 64} (h : v.toNat % 2 ^ k = v'.toNat % 2 ^ k) (hk : k ≤ 64) :
    scanNext (Cursor.mask 64 k) v = scanNext (Cursor.mask 64 k) v' := by
  have hor : v ||| ~~~Cursor.mask 64 k = v' ||| ~~~Cursor.mask 64 k := by
    apply BitVec.eq_of_getLsbD_eq
    intro i hi
    rw [BitVec.getLsbD_or, BitVec.getLsbD_or, BitVec.getLsbD_not, Cursor.getLsbD_mask hk]
    by_cases hik : i < k
    · have hbit := congrArg (·.testBit i) h
      simp only [Nat.testBit_mod_two_pow, hik, decide_true, Bool.true_and, BitVec.testBit_toNat] at hbit
      rw [hbit]
    · simp [hik, hi]
  rw [scanNext, hor, scanNext]

/-- No bits between the masks: the place in the larger table is that in the smaller. -/
theorem and_xor_mask_eq_zero_iff (hjk : j ≤ k) (hk : k ≤ 64) (v : BitVec 64) :
    v &&& (Cursor.mask 64 j ^^^ Cursor.mask 64 k) = 0 ↔ v.toNat % 2 ^ k < 2 ^ j := by
  have hj : j ≤ 64 := hjk.trans hk
  constructor
  · intro h
    apply Nat.lt_pow_two_of_testBit
    intro i hi
    rw [Nat.testBit_mod_two_pow, BitVec.testBit_toNat]
    have hbit := congrArg (·.getLsbD i) h
    simp only [BitVec.getLsbD_and, BitVec.getLsbD_xor, Cursor.getLsbD_mask hj, Cursor.getLsbD_mask hk,
      decide_eq_false (Nat.not_lt.2 hi), Bool.false_xor] at hbit
    rw [Bool.and_comm, hbit]
    simp
  · intro h
    apply BitVec.eq_of_getLsbD_eq
    intro i hi
    rw [BitVec.getLsbD_and, BitVec.getLsbD_xor, Cursor.getLsbD_mask hj, Cursor.getLsbD_mask hk]
    by_cases hij : j ≤ i ∧ i < k
    · have hfalse := Nat.testBit_lt_two_pow (h.trans_le (Nat.pow_le_pow_right (by omega) hij.1))
      rw [Nat.testBit_mod_two_pow, BitVec.testBit_toNat, decide_eq_true hij.2, Bool.true_and] at hfalse
      simp [hfalse]
    · have hsame : decide (i < j) = decide (i < k) := by
        rw [decide_eq_decide]
        omega
      simp [hsame]

end

/-! ### What a call hands out -/

namespace Dictht

variable {hash : κ → BitVec 64} {t : Dictht κ ν}

theorem chain_sublist (t : Dictht κ ν) (i : Nat) : (t.chain i).Sublist (t.table.drop i).flatten := by
  rw [chain]
  cases h : t.table[i]? with
  | none => exact List.nil_sublist _
  | some b =>
    obtain ⟨hi, rfl⟩ := List.getElem?_eq_some_iff.1 h
    rw [List.drop_eq_getElem_cons hi, List.flatten_cons, Option.getD_some]
    exact List.sublist_append_left _ _

/-- A bucket, then others further on, is part of the table in its order. -/
theorem chain_append_sublist {i i' : Nat} (hi : i < i') {es : List (κ × ν)}
    (h : es.Sublist (t.table.drop i').flatten) :
    (t.chain i ++ es).Sublist (t.table.drop i).flatten := by
  have hdrop : (t.table.drop i').flatten.Sublist (t.table.drop (i + 1)).flatten := by
    have hle : i' = i + 1 + (i' - (i + 1)) := by omega
    rw [hle, ← List.drop_drop]
    exact (List.drop_sublist _ _).flatten
  rw [chain]
  cases hb : t.table[i]? with
  | none =>
    have hnil : t.table.drop (i + 1) = [] :=
      List.drop_eq_nil_of_le ((List.getElem?_eq_none_iff.1 hb).trans (Nat.le_succ _))
    rw [hnil] at hdrop
    have hes : es = [] := List.eq_nil_of_sublist_nil (h.trans hdrop)
    simp [hes]
  | some b =>
    obtain ⟨hlt, rfl⟩ := List.getElem?_eq_some_iff.1 hb
    rw [List.drop_eq_getElem_cons hlt, List.flatten_cons, Option.getD_some]
    exact (h.trans hdrop).append_left _

end Dictht

theorem eq_or_add_le_of_mod {a b m : Nat} (hab : a ≤ b) (h : b % m = a % m) : b = a ∨ a + m ≤ b := by
  obtain ⟨c, hc⟩ := (Nat.modEq_iff_dvd' hab).1 (Nat.ModEq.symm h)
  cases c with
  | zero => exact .inl (by omega)
  | succ c =>
    have hle : m ≤ m * (c + 1) := Nat.le_mul_of_pos_right m (Nat.succ_pos c)
    exact .inr (by omega)

/-- The loop goes through the buckets of the larger table from the cursor's own on, in steps of the
smaller table's size. -/
theorem scanExpansions_spec {t : Dictht κ ν} {j k : Nat} (hjk : j ≤ k) (hk : k ≤ 63)
    (hsize : t.size = 2 ^ k) (fuel : Nat) :
    ∀ {v : BitVec 64}, 2 ^ k ≤ v.toNat % 2 ^ k + fuel * 2 ^ j →
      (∀ e, e ∈ (scanExpansions t (Cursor.mask 64 j) fuel v).1 ↔
        ∃ i, v.toNat % 2 ^ k ≤ i ∧ i < 2 ^ k ∧ i % 2 ^ j = v.toNat % 2 ^ j ∧ e ∈ t.chain i) ∧
      (scanExpansions t (Cursor.mask 64 j) fuel v).1.Sublist (t.table.drop (v.toNat % 2 ^ k)).flatten ∧
      (scanExpansions t (Cursor.mask 64 j) fuel v).2.toNat % 2 ^ j = v.toNat % 2 ^ j := by
  induction fuel with
  | zero =>
    intro v hfuel
    have hlt := Nat.mod_lt v.toNat (Nat.two_pow_pos k)
    omega
  | succ fuel ih =>
    intro v hfuel
    have hj64 : j ≤ 64 := by omega
    have hdvd : 2 ^ j ∣ 2 ^ k := Nat.pow_dvd_pow 2 hjk
    have hbump := toNat_scanBump hj64 v
    have hlow : (scanBump (Cursor.mask 64 j) v).toNat % 2 ^ j = v.toNat % 2 ^ j := by
      rw [hbump, Nat.mod_mod_of_dvd _ (Nat.pow_dvd_pow 2 hj64), Nat.add_mod_right]
    have hplace : (scanBump (Cursor.mask 64 j) v).toNat % 2 ^ k = (v.toNat % 2 ^ k + 2 ^ j) % 2 ^ k := by
      rw [hbump, Nat.mod_mod_of_dvd _ (Nat.pow_dvd_pow 2 (by omega)), Nat.mod_add_mod]
    have hmod : v.toNat % 2 ^ k % 2 ^ j = v.toNat % 2 ^ j := Nat.mod_mod_of_dvd _ hdvd
    have hi := Nat.mod_lt v.toNat (Nat.two_pow_pos k)
    have hend := and_xor_mask_eq_zero_iff hjk (by omega) (scanBump (Cursor.mask 64 j) v)
    rw [hplace] at hend
    have hchain : (v &&& Cursor.mask 64 k).toNat = v.toNat % 2 ^ k :=
      Cursor.toNat_and_mask v (by omega)
    have hpos : 0 < 2 ^ j := Nat.two_pow_pos j
    simp only [scanExpansions, Dictht.sizemask_eq hsize, hchain]
    generalize v.toNat % 2 ^ k = i at *
    by_cases hlast : i + 2 ^ j < 2 ^ k
    · -- There is a bucket further on.
      rw [Nat.mod_eq_of_lt hlast] at hplace hend
      have hgo : ¬ scanBump (Cursor.mask 64 j) v &&& (Cursor.mask 64 j ^^^ Cursor.mask 64 k) = 0 := by
        rw [hend]
        omega
      have hfuel' : 2 ^ k ≤ (scanBump (Cursor.mask 64 j) v).toNat % 2 ^ k + fuel * 2 ^ j := by
        rw [hplace, Nat.add_assoc, Nat.add_comm (2 ^ j), ← Nat.succ_mul]
        exact hfuel
      obtain ⟨hmem, hsub, hrest⟩ := ih hfuel'
      rw [hplace] at hmem hsub
      rw [if_neg hgo]
      refine ⟨?_, Dictht.chain_append_sublist (by omega) hsub, hrest.trans hlow⟩
      intro e
      rw [List.mem_append, hmem, hlow]
      constructor
      · intro he
        rcases he with he | ⟨i', hi', hlt, hres, he⟩
        · exact ⟨i, Nat.le_refl _, hi, hmod, he⟩
        · exact ⟨i', by omega, hlt, hres, he⟩
      · intro hx
        obtain ⟨i', hi', hlt, hres, he⟩ := hx
        rcases eq_or_add_le_of_mod hi' (hres.trans hmod.symm) with rfl | hle
        · exact .inl he
        · exact .inr ⟨i', hle, hlt, hres, he⟩
    · -- The next step leaves the table.
      have hk2 : 2 ^ j ≤ 2 ^ k := Nat.pow_le_pow_right (by omega) hjk
      have hstop : scanBump (Cursor.mask 64 j) v &&& (Cursor.mask 64 j ^^^ Cursor.mask 64 k) = 0 := by
        rw [hend, Nat.mod_eq_sub_mod (Nat.not_lt.1 hlast), Nat.mod_eq_of_lt (by omega)]
        omega
      rw [if_pos hstop]
      refine ⟨?_, Dictht.chain_sublist t i, hlow⟩
      intro e
      constructor
      · exact fun he => ⟨i, Nat.le_refl _, hi, hmod, he⟩
      · intro hx
        obtain ⟨i', hi', hlt, hres, he⟩ := hx
        rcases eq_or_add_le_of_mod hi' (hres.trans hmod.symm) with rfl | hle
        · exact he
        · omega

namespace Dict

variable {hash : κ → BitVec 64} {d : Dict κ ν} {v : BitVec 64}

/-- The size of the table the cursor goes by. -/
def scanSize (d : Dict κ ν) : Nat := if d.isRehashing then d.scanTables.1.size else d.ht0.size

/-- The cursor has no bits between the two masks. -/
def Aligned (d : Dict κ ν) (v : BitVec 64) : Prop :=
  d.isRehashing = true → v &&& (d.scanTables.1.sizemask ^^^ d.scanTables.2.sizemask) = 0

instance (d : Dict κ ν) (v : BitVec 64) : Decidable (d.Aligned v) :=
  inferInstanceAs (Decidable (d.isRehashing = true → _ = 0))

theorem Wf.scanTables (h : d.Wf hash) {idx : Nat} (hr : d.Rehashing idx) :
    d.scanTables.1.Wf hash ∧ d.scanTables.2.Wf hash ∧
      (d.scanTables.1.entries ++ d.scanTables.2.entries).Perm d.entries ∧
      ∃ j k, j ≤ k ∧ k ≤ 63 ∧ d.scanTables.1.size = 2 ^ j ∧ d.scanTables.2.size = 2 ^ k := by
  obtain ⟨k0, hk0, hsize0⟩ := hr.sized0
  obtain ⟨k1, hk1, hsize1⟩ := hr.sized1
  rw [Dict.scanTables]
  split
  · next hlt =>
    rw [hsize0, hsize1] at hlt
    have hle : k1 ≤ k0 := ((Nat.pow_lt_pow_iff_right (by omega)).1 hlt).le
    exact ⟨h.ht1, h.ht0, List.perm_append_comm, k1, k0, hle, hk0, hsize1, hsize0⟩
  · next hge =>
    rw [hsize0, hsize1, Nat.not_lt] at hge
    have hle : k0 ≤ k1 := (Nat.pow_le_pow_iff_right (by omega)).1 hge
    exact ⟨h.ht0, h.ht1, List.Perm.refl _, k0, k1, hle, hk1, hsize0, hsize1⟩

theorem and_mask_eq_iff_mod {k : Nat} (hk : k ≤ 63) (u v : BitVec 64) :
    u &&& Cursor.mask 64 k = v &&& Cursor.mask 64 k ↔ u.toNat % 2 ^ k = v.toNat % 2 ^ k := by
  rw [← BitVec.toNat_inj, Cursor.toNat_and_mask u (by omega), Cursor.toNat_and_mask v (by omega)]

/-- The entries of the bucket the cursor is at, and no others. -/
theorem mem_chain_iff_mod {t : Dictht κ ν} (h : t.Wf hash) {k : Nat} (hk : k ≤ 63) (hsize : t.size = 2 ^ k)
    (e : κ × ν) (i : Nat) : e ∈ t.chain i ↔ e ∈ t.entries ∧ (hash e.1).toNat % 2 ^ k = i := by
  rw [← Dictht.index_eq hk hsize]
  constructor
  · intro he
    have hi := h.chain_placed i e he
    exact ⟨(h.mem_chain_iff e).1 (hi ▸ he), hi⟩
  · intro hx
    obtain ⟨he, rfl⟩ := hx
    exact (h.mem_chain_iff e).2 he

/-- What a call does: it hands out entries of the cursor's bucket in the smaller table, all of them
if the cursor is aligned, each once; and it moves the cursor past that bucket. -/
theorem Wf.dictScan (h : d.Wf hash) (hne : dictSize d ≠ 0) (v : BitVec 64) :
    ∃ k, k ≤ 63 ∧ d.scanSize = 2 ^ k ∧ (dictScan d v).2 = Cursor.next k v ∧
      (∀ e ∈ (dictScan d v).1, e ∈ d.entries ∧
        hash e.1 &&& Cursor.mask 64 k = v &&& Cursor.mask 64 k) ∧
      (d.Aligned v → ∀ e ∈ d.entries, hash e.1 &&& Cursor.mask 64 k = v &&& Cursor.mask 64 k →
        e ∈ (dictScan d v).1) ∧
      ((dictScan d v).1.map (·.1)).Nodup := by
  rw [Redis.dictScan, if_neg hne, scanSize]
  cases hi : d.rehashidx with
  | none =>
    have hr : d.isRehashing = false := isRehashing_eq_false.2 hi
    have hentries := h.entries_of_single hr
    have hsized : d.ht0.Sized := by
      refine (h.single hi).1.resolve_left ?_
      intro hreset
      rw [h.size_eq, hentries, hreset] at hne
      exact hne rfl
    obtain ⟨k, hk, hsize⟩ := hsized
    have hplace : (v &&& d.ht0.sizemask).toNat = v.toNat % 2 ^ k := by
      rw [Dictht.sizemask_eq hsize, Cursor.toNat_and_mask v (by omega)]
    simp only [hr, Bool.not_false, if_true, Bool.false_eq_true, if_false, hplace]
    refine ⟨k, hk, hsize, by rw [Dictht.sizemask_eq hsize, scanNext_eq], ?_, ?_, ?_⟩
    · intro e he
      rw [mem_chain_iff_mod h.ht0 hk hsize] at he
      rw [hentries, and_mask_eq_iff_mod hk]
      exact he
    · intro _ e he hat
      rw [mem_chain_iff_mod h.ht0 hk hsize]
      rw [hentries] at he
      exact ⟨he, (and_mask_eq_iff_mod hk _ _).1 hat⟩
    · have hsub : (d.ht0.chain (v.toNat % 2 ^ k)).Sublist d.entries := by
        rw [hentries]
        exact (Dictht.chain_sublist _ _).trans (List.drop_sublist _ _).flatten
      exact (hsub.map _).nodup h.nodup
  | some idx =>
    have hr : d.isRehashing = true := by rw [isRehashing, hi]; rfl
    obtain ⟨h0, h1, hperm, j, k, hjk, hk, hsize0, hsize1⟩ := h.scanTables (h.rehashing idx hi)
    have hj : j ≤ 63 := hjk.trans hk
    simp only [hr, Bool.not_true, Bool.false_eq_true, if_false, if_true, Aligned, forall_const]
    generalize d.scanTables = ts at *
    obtain ⟨t0, t1⟩ := ts
    simp only at h0 h1 hperm hsize0 hsize1 ⊢
    have hfuel : 2 ^ k ≤ v.toNat % 2 ^ k + t1.size * 2 ^ j := by
      rw [hsize1]
      exact (Nat.le_mul_of_pos_right _ (Nat.two_pow_pos j)).trans (Nat.le_add_left _ _)
    obtain ⟨hmem, hsub, hlow⟩ := scanExpansions_spec hjk hk hsize1 t1.size hfuel
    rw [Dictht.sizemask_eq hsize0, Dictht.sizemask_eq hsize1, Cursor.toNat_and_mask v (by omega),
      and_xor_mask_eq_zero_iff hjk (by omega)]
    generalize scanExpansions t1 (Cursor.mask 64 j) t1.size v = r at hmem hsub hlow
    obtain ⟨es, v'⟩ := r
    simp only at hmem hsub hlow ⊢
    have hdvd : 2 ^ j ∣ 2 ^ k := Nat.pow_dvd_pow 2 hjk
    refine ⟨j, hj, hsize0, by rw [scanNext_congr hlow (by omega), scanNext_eq], ?_, ?_, ?_⟩
    · intro e he
      rw [← hperm.mem_iff, List.mem_append, and_mask_eq_iff_mod hj]
      rcases List.mem_append.1 he with he | he
      · rw [mem_chain_iff_mod h0 hj hsize0] at he
        exact ⟨.inl he.1, he.2⟩
      · obtain ⟨i, -, -, hres, he⟩ := (hmem e).1 he
        obtain ⟨hin, rfl⟩ := (mem_chain_iff_mod h1 hk hsize1 e i).1 he
        rw [Nat.mod_mod_of_dvd _ hdvd] at hres
        exact ⟨.inr hin, hres⟩
    · intro haligned e he hat
      rw [and_mask_eq_iff_mod hj] at hat
      rw [List.mem_append]
      rcases List.mem_append.1 (hperm.mem_iff.2 he) with he | he
      · exact .inl ((mem_chain_iff_mod h0 hj hsize0 e _).2 ⟨he, hat⟩)
      · right
        rw [hmem]
        refine ⟨(hash e.1).toNat % 2 ^ k, ?_, Nat.mod_lt _ (Nat.two_pow_pos k), ?_, ?_⟩
        · -- An aligned cursor is the first of its places in the larger table.
          calc v.toNat % 2 ^ k = v.toNat % 2 ^ k % 2 ^ j := (Nat.mod_eq_of_lt haligned).symm
            _ = v.toNat % 2 ^ j := Nat.mod_mod_of_dvd _ hdvd
            _ = (hash e.1).toNat % 2 ^ j := hat.symm
            _ = (hash e.1).toNat % 2 ^ k % 2 ^ j := (Nat.mod_mod_of_dvd _ hdvd).symm
            _ ≤ (hash e.1).toNat % 2 ^ k := Nat.mod_le _ _
        · rw [Nat.mod_mod_of_dvd _ hdvd]
          exact hat
        · exact (mem_chain_iff_mod h1 hk hsize1 e _).2 ⟨he, rfl⟩
    · have hchain : (t0.chain (v.toNat % 2 ^ j)).Sublist t0.entries :=
        (Dictht.chain_sublist _ _).trans (List.drop_sublist _ _).flatten
      have hes : es.Sublist t1.entries := hsub.trans (List.drop_sublist _ _).flatten
      exact ((hchain.append hes).map _).nodup (nodup_of_perm hperm.symm h.nodup)

/-- A cursor a call gave out while the smaller table was no larger is aligned. -/
theorem Wf.aligned (h : d.Wf hash) {k : Nat} (hv : Cursor.AtStart k v) (hk : k = 0 ∨ 2 ^ k ≤ d.scanSize) :
    d.Aligned v := by
  intro hr
  obtain ⟨idx, hi⟩ := Option.isSome_iff_exists.1 hr
  obtain ⟨-, -, -, j, j', hjj', hj', hsize0, hsize1⟩ := h.scanTables (h.rehashing idx hi)
  rw [scanSize, if_pos hr, hsize0] at hk
  have hkj : k ≤ j := by
    rcases hk with rfl | hle
    · exact Nat.zero_le _
    · exact (Nat.pow_le_pow_iff_right (by omega)).1 hle
  rw [Dictht.sizemask_eq hsize0, Dictht.sizemask_eq hsize1]
  apply BitVec.eq_of_getLsbD_eq
  intro i hilt
  rw [BitVec.getLsbD_and, BitVec.getLsbD_xor, Cursor.getLsbD_mask (by omega : j ≤ 64),
    Cursor.getLsbD_mask (by omega : j' ≤ 64)]
  by_cases hij : i < j
  · have hij' : i < j' := by omega
    simp [hij, hij']
  · rw [hv.getLsbD (by omega : k ≤ i)]
    simp

end Dict

/-! ## Whole scans -/

/-- A scan, and the dictionary it goes over. -/
structure Scan (κ ν : Type) where
  d : Dict κ ν
  /-- What the last call returned; 0 before the first. -/
  cursor : BitVec 64
  returned : List (κ × ν)
  /-- A call has returned 0. -/
  finished : Bool
  deriving Repr, DecidableEq

def Scan.start (d : Dict κ ν) : Scan κ ν := ⟨d, 0, [], false⟩

inductive ScanLabel (κ ν : Type)
  | call
  /-- Something else is done to the dictionary. -/
  | op (canResize : Bool) (op : DictOp κ ν)
  deriving Repr, DecidableEq

def ScanLabel.isCall : ScanLabel κ ν → Bool
  | .call => true
  | .op _ _ => false

/-- One step. Each call is given the cursor the last one returned. -/
def scanExec [DecidableEq κ] (hash : κ → BitVec 64) (s : Scan κ ν) : ScanLabel κ ν → Scan κ ν
  | .call =>
    if s.finished then s
    else
      let (es, v) := dictScan s.d s.cursor
      ⟨s.d, v, s.returned ++ es, v = 0⟩
  | .op canResize op => { s with d := (dictStep hash s.d canResize op).1 }

/-- `C` holds of the dictionary and the cursor at every call of the scan. -/
def AtCalls (C : Dict κ ν → BitVec 64 → Prop) (s : Scan κ ν) (l : ScanLabel κ ν) : Prop :=
  l.isCall = true → s.finished = false → C s.d s.cursor

instance (C : Dict κ ν → BitVec 64 → Prop) [∀ d v, Decidable (C d v)] (s : Scan κ ν) (l : ScanLabel κ ν) :
    Decidable (AtCalls C s l) :=
  inferInstanceAs (Decidable (l.isCall = true → s.finished = false → C s.d s.cursor))

/-- The entries fit in memory. -/
def scanFits (s : Scan κ ν) (_ : ScanLabel κ ν) : Prop := dictSize s.d < 2 ^ 62

instance (s : Scan κ ν) (l : ScanLabel κ ν) : Decidable (scanFits s l) :=
  inferInstanceAs (Decidable (dictSize s.d < 2 ^ 62))

section
variable [DecidableEq κ] {hash : κ → BitVec 64}

theorem Dict.Wf.step {d : Dict κ ν} (h : d.Wf hash) (hfits : dictSize d < 2 ^ 62) (canResize : Bool)
    (op : DictOp κ ν) : (dictStep hash d canResize op).1.Wf hash := by
  rw [h.size_eq] at hfits
  exact (h.represents.step hfits canResize op).1.wf

/-- The key has been returned, or is still ahead of the cursor. -/
def Scan.Covers (hash : κ → BitVec 64) (key : κ) (s : Scan κ ν) : Prop :=
  key ∈ s.returned.map (·.1) ∨ s.finished = false ∧ Cursor.rank s.cursor ≤ Cursor.rank (hash key)

omit [DecidableEq κ] in
theorem covers_call {d : Dict κ ν} (h : d.Wf hash) {v : BitVec 64} (ha : d.Aligned v) {key : κ} {val : ν}
    (hkey : (key, val) ∈ d.entries) (hv : Cursor.rank v ≤ Cursor.rank (hash key)) :
    key ∈ (dictScan d v).1.map (·.1) ∨
      (dictScan d v).2 ≠ 0 ∧ Cursor.rank (dictScan d v).2 ≤ Cursor.rank (hash key) := by
  have hne : dictSize d ≠ 0 := by
    rw [h.size_eq]
    exact (List.length_pos_of_mem hkey).ne'
  obtain ⟨k, hk, -, hnext, -, hall, -⟩ := h.dictScan hne v
  rw [hnext]
  have hk64 : k ≤ 64 := by omega
  rcases Cursor.visit_or_ahead hk64 hv with hat | hahead
  · exact .inl (List.mem_map.2 ⟨(key, val), hall ha (key, val) hkey hat, rfl⟩)
  · exact .inr hahead

omit [DecidableEq κ] in
theorem Scan.covers_start (hash : κ → BitVec 64) (key : κ) (d : Dict κ ν) :
    (Scan.start d).Covers hash key := by
  refine .inr ⟨rfl, ?_⟩
  rw [Scan.start, Cursor.rank_zero]
  exact Nat.zero_le _

/-- The key is there at the call, and the cursor aligned. -/
def Reached (key : κ) (d : Dict κ ν) (v : BitVec 64) : Prop := key ∈ d.entries.map (·.1) ∧ d.Aligned v

instance (key : κ) (d : Dict κ ν) (v : BitVec 64) : Decidable (Reached key d v) :=
  inferInstanceAs (Decidable (key ∈ d.entries.map (·.1) ∧ d.Aligned v))

theorem covers_run (key : κ) (ls : List (ScanLabel κ ν)) {s : Scan κ ν} (hwf : s.d.Wf hash)
    (hcov : s.Covers hash key) (hfits : Run.Along (scanExec hash) scanFits s ls)
    (hreached : Run.Along (scanExec hash) (AtCalls (Reached key)) s ls) :
    (Run.run (scanExec hash) s ls).Covers hash key := by
  have hboth := hfits.and hreached
  refine (Run.Along.always (I := fun s => s.d.Wf hash ∧ s.Covers hash key) ?_ ⟨hwf, hcov⟩ hboth).last.2
  intro s l hinv hl
  obtain ⟨hwf, hcov⟩ := hinv
  obtain ⟨hfits, hcall⟩ := hl
  cases l with
  | op canResize op => exact ⟨hwf.step hfits canResize op, hcov⟩
  | call =>
    rw [scanExec]
    split
    · exact ⟨hwf, hcov⟩
    · next hopen =>
      refine ⟨hwf, ?_⟩
      have hopen : s.finished = false := by simpa using hopen
      obtain ⟨hkey, ha⟩ := hcall rfl hopen
      obtain ⟨e, he, rfl⟩ := List.mem_map.1 hkey
      rw [Scan.Covers, List.map_append, List.mem_append]
      rcases hcov with hret | ⟨-, hahead⟩
      · exact .inl (.inl hret)
      · rcases covers_call hwf ha he hahead with hnow | ⟨hne, hahead⟩
        · exact .inl (.inr hnow)
        · exact .inr ⟨decide_eq_false hne, hahead⟩

/-- A scan that has ended has returned every key that was there at all its calls, whatever was done
to the dictionary between them, if no call had a cursor with bits between the masks. -/
theorem scan_complete (hash : κ → BitVec 64) (ls : List (ScanLabel κ ν)) (key : κ)
    (hfits : Run.Along (scanExec hash) scanFits (Scan.start dictCreate) ls)
    (hreached : Run.Along (scanExec hash) (AtCalls (Reached key)) (Scan.start dictCreate) ls)
    (hover : (Run.run (scanExec hash) (Scan.start dictCreate) ls).finished = true) :
    key ∈ (Run.run (scanExec hash) (Scan.start dictCreate) ls).returned.map (·.1) := by
  have hcov := covers_run key ls Dict.wf_create (Scan.covers_start hash key dictCreate) hfits hreached
  refine hcov.resolve_right ?_
  rw [hover]
  exact fun hopen => Bool.noConfusion hopen.1

/-- The keys 0 to `n - 1`, added in a row. -/
def addKeys (n : Nat) : List (ScanLabel Nat Unit) := (List.range n).map fun key => .op true (.add key ())

/-- Five keys, over while the table of four is being emptied into one of eight. -/
theorem scan_complete_five :
    3 ∈ (Run.run (scanExec (BitVec.ofNat 64)) (Scan.start dictCreate)
      (addKeys 5 ++ [.call, .op true (.delete 2), .call, .call, .op true (.fetchValue 0), .call])).returned.map
        (·.1) :=
  scan_complete _ _ 3 (by decide) (by decide) (by decide)

set_option maxRecDepth 10000 in
/-- Why the cursor has to be aligned. Nine keys have made a table of sixteen, and all but 4 are
deleted again. The scan has its first cursor, 8, from that table when it starts to shrink to four
buckets: the second call looks for 4 from bucket 8 of the old table on, and 4 is in none of these. -/
example :
    let ls := addKeys 9 ++ ([0, 1, 2, 3, 5, 6, 7, 8].map fun key => .op true (.delete key)) ++
      [.call, .op true .resize, .call, .call, .call, .call]
    Run.Along (scanExec (BitVec.ofNat 64)) (AtCalls fun d _ => 4 ∈ d.entries.map (·.1))
        (Scan.start dictCreate) ls ∧
      (Run.run (scanExec (BitVec.ofNat 64)) (Scan.start dictCreate) ls).finished = true ∧
      (Run.run (scanExec (BitVec.ofNat 64)) (Scan.start dictCreate) ls).returned = [] := by decide

/-! ### How long a scan takes -/

omit [DecidableEq κ] in
/-- A call that is not the last takes the cursor up by at least a bucket of a table of `2^K`. -/
theorem rank_call {d : Dict κ ν} (h : d.Wf hash) {K : Nat} (hK : K ≤ 63) (hsize : d.scanSize ≤ 2 ^ K)
    {v : BitVec 64} (hv : Cursor.AtStart K v) (hne : (dictScan d v).2 ≠ 0) :
    Cursor.AtStart K (dictScan d v).2 ∧
      Cursor.rank v + 2 ^ (64 - K) ≤ Cursor.rank (dictScan d v).2 := by
  have hd : dictSize d ≠ 0 := by
    intro hzero
    rw [dictScan, if_pos hzero] at hne
    exact hne rfl
  obtain ⟨k, hk, hscan, hnext, -⟩ := h.dictScan hd v
  rw [hscan] at hsize
  have hkK : k ≤ K := (Nat.pow_le_pow_iff_right (by omega)).1 hsize
  have hk64 : k ≤ 64 := by omega
  have hK64 : K ≤ 64 := by omega
  rw [hnext] at hne ⊢
  exact ⟨(Cursor.atStart_next v hk64).mono hkK, hv.add_le_rank_next hK64 hkK hne⟩

/-- After `n` calls the scan is over, or the cursor has come that many buckets up. -/
def Scan.Up (K n : Nat) (s : Scan κ ν) : Prop :=
  s.finished = true ∨ Cursor.AtStart K s.cursor ∧ n * 2 ^ (64 - K) ≤ Cursor.rank s.cursor

theorem Scan.Up.call {K n : Nat} {s : Scan κ ν} (h : s.Up K n) (hwf : s.d.Wf hash) (hK : K ≤ 63)
    (hsize : s.finished = false → s.d.scanSize ≤ 2 ^ K) : (scanExec hash s .call).Up K (n + 1) := by
  rw [scanExec]
  split
  · next hover => exact .inl hover
  · next hopen =>
    have hopen : s.finished = false := by simpa using hopen
    obtain ⟨hstart, hrank⟩ := h.resolve_left (by simp [hopen])
    by_cases hne : (dictScan s.d s.cursor).2 = 0
    · exact .inl (decide_eq_true hne)
    · obtain ⟨hstart', hup⟩ := rank_call hwf hK (hsize hopen) hstart hne
      refine .inr ⟨hstart', ?_⟩
      rw [Nat.add_mul, Nat.one_mul]
      exact (Nat.add_le_add_right hrank _).trans hup

theorem Scan.Up.run {K : Nat} (hK : K ≤ 63) (ls : List (ScanLabel κ ν)) :
    ∀ {n : Nat} {s : Scan κ ν}, s.Up K n → s.d.Wf hash → Run.Along (scanExec hash) scanFits s ls →
      Run.Along (scanExec hash) (AtCalls fun d _ => d.scanSize ≤ 2 ^ K) s ls →
      (Run.run (scanExec hash) s ls).Up K (n + ls.countP ScanLabel.isCall) := by
  induction ls with
  | nil => exact fun h _ _ _ => h
  | cons l ls ih =>
    intro n s h hwf hfits hsize
    rw [Run.run_cons]
    cases l with
    | op canResize op =>
      rw [List.countP_cons_of_neg (by simp [ScanLabel.isCall])]
      exact ih h (hwf.step hfits.1 canResize op) hfits.2 hsize.2
    | call =>
      have hwf' : (scanExec hash s .call).d.Wf hash := by
        rw [scanExec]
        split
        · exact hwf
        · exact hwf
      rw [List.countP_cons_of_pos rfl, Nat.add_comm _ 1, ← Nat.add_assoc]
      exact ih (h.call hwf hK (hsize.1 rfl)) hwf' hfits.2 hsize.2

/-- A scan is over after as many calls as the largest table it meets has buckets, whatever is done
to the dictionary in between. -/
theorem scan_ends (hash : κ → BitVec 64) (ls : List (ScanLabel κ ν)) (K : Nat) (hK : K ≤ 63)
    (hfits : Run.Along (scanExec hash) scanFits (Scan.start dictCreate) ls)
    (hsize : Run.Along (scanExec hash) (AtCalls fun d _ => d.scanSize ≤ 2 ^ K) (Scan.start dictCreate) ls)
    (hcalls : 2 ^ K ≤ ls.countP ScanLabel.isCall) :
    (Run.run (scanExec hash) (Scan.start dictCreate) ls).finished = true := by
  have hup : (Scan.start dictCreate : Scan κ ν).Up K 0 :=
    .inr ⟨Cursor.atStart_zero K, by rw [Nat.zero_mul]; exact Nat.zero_le _⟩
  refine (hup.run hK ls Dict.wf_create hfits hsize).resolve_right ?_
  intro hx
  obtain ⟨-, hrank⟩ := hx
  rw [Nat.zero_add] at hrank
  have hfull : 2 ^ K * 2 ^ (64 - K) = 2 ^ 64 := by rw [← Nat.pow_add, Nat.add_sub_cancel' (by omega)]
  have hle := (Nat.mul_le_mul_right (2 ^ (64 - K)) hcalls).trans hrank
  rw [hfull] at hle
  exact absurd (Cursor.rank_lt _) (Nat.not_lt.2 hle)

theorem scan_ends_five :
    (Run.run (scanExec (BitVec.ofNat 64)) (Scan.start dictCreate)
      (addKeys 5 ++ [.call, .op true (.delete 2), .call, .call, .op true (.fetchValue 0), .call])).finished = true :=
  scan_ends _ _ 2 (by decide) (by decide) (by decide) (by decide)

end

end Redis
