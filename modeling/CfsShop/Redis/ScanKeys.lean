/-
What a client may rely on that sends SCAN again and again, each time with the
cursor of the last reply: a key that was there at every call has been returned
when the cursor is 0 again, but for the gap of `dictScan`, which the second
and later calls of one command never come to.
-/
import Mathlib.Data.List.TakeWhile
import CfsShop.Redis.Serving

namespace Redis

/-! ## The loop of one command -/

section
variable {ν : Type} {hash : Sds → BitVec 64} {d : Dict Sds ν}

theorem keys_scanLoop (count : Int) (turns : Nat) : ∀ {v : BitVec 64} {keys : List Sds} {key : Sds}, key ∈ keys →
    key ∈ (scanLoop d count turns v keys).2 := by
  induction turns with
  | zero => exact fun hkey => List.mem_append_left _ hkey
  | succ turns ih =>
    intro v keys key hkey
    simp only [scanLoop]
    split
    · exact ih (List.mem_append_left _ hkey)
    · exact List.mem_append_left _ hkey

/-- A key that is ahead is come across, or still ahead at the end. -/
theorem covers_scanLoop (hwf : d.Wf hash) (count : Int) (turns : Nat) {key : Sds} {val : ν}
    (hkey : (key, val) ∈ d.entries) : ∀ {v : BitVec 64} {keys : List Sds}, d.Aligned v →
      Cursor.rank v ≤ Cursor.rank (hash key) →
      key ∈ (scanLoop d count turns v keys).2 ∨ (scanLoop d count turns v keys).1 ≠ 0 ∧
        Cursor.rank (scanLoop d count turns v keys).1 ≤ Cursor.rank (hash key) := by
  have hne : dictSize d ≠ 0 := by
    rw [hwf.size_eq]
    exact (List.length_pos_of_mem hkey).ne'
  induction turns with
  | zero =>
    intro v keys ha hv
    exact (covers_call hwf ha hkey hv).imp_left fun hmem => List.mem_append_right _ hmem
  | succ turns ih =>
    intro v keys ha hv
    simp only [scanLoop]
    rcases covers_call hwf ha hkey hv with hmem | ⟨hnext, hahead⟩
    · left
      split
      · exact keys_scanLoop count turns (List.mem_append_right _ hmem)
      · exact List.mem_append_right _ hmem
    · split
      · -- The cursor of a call is aligned for the next one while the tables stay as they are.
        obtain ⟨k, hk, hsize, heq, -⟩ := hwf.dictScan hne v
        refine ih (hwf.aligned (heq ▸ Cursor.atStart_next v (by omega)) (.inr hsize.ge)) hahead
      · exact .inr ⟨hnext, hahead⟩

/-- A cursor that is handed out has no bits beyond the largest mask. -/
theorem dictScan_lt (hwf : d.Wf hash) (v : BitVec 64) : (dictScan d v).2.toNat < 2 ^ 63 := by
  by_cases hzero : dictSize d = 0
  · rw [dictScan, if_pos hzero]
    exact Nat.two_pow_pos 63
  · obtain ⟨k, hk, -, hnext, -⟩ := hwf.dictScan hzero v
    have hstart : Cursor.AtStart k (dictScan d v).2 := hnext ▸ Cursor.atStart_next v (by omega)
    have hlt : (dictScan d v).2.toNat < 2 ^ k := by
      refine Nat.lt_pow_two_of_testBit _ fun i hi => ?_
      rw [BitVec.testBit_toNat]
      exact hstart.getLsbD hi
    exact Nat.lt_of_lt_of_le hlt (Nat.pow_le_pow_right (by omega) hk)

theorem scanLoop_lt (hwf : d.Wf hash) (count : Int) (turns : Nat) : ∀ {v : BitVec 64} {keys : List Sds},
    (scanLoop d count turns v keys).1.toNat < 2 ^ 63 := by
  induction turns with
  | zero => exact dictScan_lt hwf _
  | succ turns ih =>
    intro v keys
    simp only [scanLoop]
    split
    · exact ih
    · exact dictScan_lt hwf v

end

/-! ## Cursors as text -/

theorem isSpace_of_isDigit {c : Char} (h : c.isDigit = true) : isSpace c = false := by
  have h0 := (Decimal.isDigit_iff.1 h).1
  have hc : '0'.toNat = 48 := rfl
  rw [isSpace, Bool.or_eq_false_iff, beq_eq_false_iff_ne]
  refine ⟨?_, ?_⟩
  · rintro rfl
    exact absurd h0 (by decide)
  · simp only [Bool.and_eq_false_iff, decide_eq_false_iff_not]
    omega

theorem decimal_natCast (n : Nat) : decimal n = Nat.toDigits 10 n := by
  rw [decimal_eq, if_neg (by omega), List.nil_append, Int.natAbs_natCast]

/-- The cursor of a reply is read as it was written. -/
theorem parseScanCursor_decimal {n : Nat} (hn : n < 2 ^ 64) :
    parseScanCursor (decimal n) = some (BitVec.ofNat 64 n) := by
  have hdigits : ∀ c ∈ Nat.toDigits 10 n, c.isDigit = true :=
    fun c hc => Nat.isDigit_of_mem_toDigits (by omega) (by omega) hc
  have hvalue : Nat.ofDigitChars 10 (Nat.toDigits 10 n) 0 = n := Nat.ofDigitChars_ten_toDigits
  rw [decimal_natCast]
  obtain ⟨c, cs, hcs⟩ := List.exists_cons_of_ne_nil (Nat.toDigits_ne_nil (n := n) (b := 10))
  rw [hcs] at hdigits hvalue ⊢
  have hc := hdigits c List.mem_cons_self
  have hspace := isSpace_of_isDigit hc
  have hminus : c ≠ '-' := by
    rintro rfl
    exact absurd hc (by decide)
  have hplus : c ≠ '+' := by
    rintro rfl
    exact absurd hc (by decide)
  have htake : (c :: cs).takeWhile Char.isDigit = c :: cs := List.takeWhile_eq_self_iff.2 hdigits
  have hdrop : (c :: cs).dropWhile Char.isDigit = [] := List.dropWhile_eq_nil_iff.2 hdigits
  have hstrtoul : strtoul (c :: cs) = (n, [], false) := by
    rw [strtoul, List.dropWhile_cons_of_neg (by simp [hspace])]
    simp only [List.head?_cons, Option.some.injEq, hminus, hplus, or_self, if_false, htake, hdrop, hvalue,
      List.isEmpty_cons, Bool.false_eq_true]
    rw [if_neg (by rw [ULONG_MAX]; omega)]
  rw [parseScanCursor, hstrtoul]
  simp [hspace]

/-! ## One command -/

/-- What a SCAN with a cursor returns: keys that match and stay, and of those that are ahead of the
cursor each one, unless it is still ahead of the next. -/
theorem scan_covers {server : Server} {n : Nat} {s : Store} {db : RedisDb} (h : Holds server.hash n s db)
    {args : List Sds} {opts : ScanOptions} (hargs : scanOptions args {} = .ok opts)
    (hpat : s.dict [] ≠ none → opts.pat.all readable = true) {v : BitVec 64} :
    ∃ (next : BitVec 64) (out : List Sds) (s' : Store) (db' : RedisDb),
      Prog.exec (call server (.scan (decimal v.toNat) args)) db = (.ok (.scan (decimal next.toNat) out), db') ∧
      Holds server.hash n s' db' ∧ s'.seen server.mstime = s.seen server.mstime ∧
      (∀ key ∈ out, (s.seen server.mstime).Scans opts.pat key) ∧
      ∀ key, (s.seen server.mstime).Scans opts.pat key → db.dict.Aligned v →
        Cursor.rank v ≤ Cursor.rank (server.hash key) →
        key ∈ out ∨ next ≠ 0 ∧ Cursor.rank next ≤ Cursor.rank (server.hash key) := by
  obtain ⟨out, s', db', hexec, hdb', hs', hout⟩ := gives_scanGenericCommand h hargs hpat v
  have hlt : (opts.loop db v).1.toNat < 2 ^ 63 := scanLoop_lt h.dict.wf _ _
  refine ⟨(opts.loop db v).1, out, s', db', ?_, hdb', hs', fun key hkey => ((hout key).1 hkey).2, ?_⟩
  · have hint : (opts.loop db v).1.toInt = (opts.loop db v).1.toNat := by
      rw [BitVec.toInt_eq_toNat_of_lt (by omega)]
    have hlen : (decimal (opts.loop db v).1.toNat).length ≤ 20 :=
      length_decimal ⟨by rw [LLONG_MIN]; omega, by rw [LLONG_MAX]; omega⟩
    rw [call, scanCommand, parseScanCursor_decimal v.isLt, BitVec.ofNat_toNat, BitVec.setWidth_eq]
    simp only
    rw [hexec, hint, ll2string_eq (by rw [List.length_replicate]; omega)]
  · intro key hscans ha hv
    have hdict : s.dict key ≠ none := by
      intro hnone
      have hsome := hscans.1
      rw [Store.seen, hnone] at hsome
      exact Bool.noConfusion hsome
    obtain ⟨o, ho⟩ := Option.ne_none_iff_exists'.1 hdict
    refine (covers_scanLoop h.dict.wf opts.count _ ((h.dict.maps key o).1 ho) ha hv).imp_left fun hmem => ?_
    exact (hout key).2 ⟨hmem, hscans⟩

end Redis
