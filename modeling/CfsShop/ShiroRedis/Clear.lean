/-
`keys` and `clear` while anything else goes on.

A call of `keys` takes in every key that is there all the time and matches its
pattern, and only keys that match and are there at some time (`keys_between`). A
`clear` that has come to its end leaves of these keys only those that were
stored since it began (`clear_leaves`). Both are for scans whose cursors are
aligned. The keys that match are those that start with the prefix, if the
prefix is of plain characters (`matches_iff`); a pattern reads others otherwise.
-/
import CfsShop.ShiroRedis.Steps

namespace ShiroRedis

open Redis

variable {hash : Sds → BitVec 64} {deserializes : Sds → Bool}

/-! ## The loop of `keys` -/

/-- The loop goes on as long as the cursor is not 0. -/
theorem compareTo_zero (n : Nat) : 0 < compareTo (decimal n) ['0'] ↔ n ≠ 0 := by
  have hdigits : ∀ c ∈ decimal n, c.isDigit = true := by
    rw [decimal_natCast]
    exact fun c hc => Nat.isDigit_of_mem_toDigits (by omega) (by omega) hc
  have hzero : decimal n = ['0'] ↔ n = 0 := by
    rw [eq_comm, decimal_eq_zero, Int.natCast_eq_zero]
  rw [ne_eq, ← hzero]
  cases hn : decimal n with
  | nil =>
    rw [decimal_natCast] at hn
    exact absurd hn Nat.toDigits_ne_nil
  | cons c cs =>
    rw [hn] at hdigits
    have hc := (Decimal.isDigit_iff.1 (hdigits c List.mem_cons_self)).1
    rw [compareTo]
    split
    · next heq =>
      subst heq
      cases cs <;> simp [compareTo]
    · next hne =>
      have hlt : '0'.toNat ≠ c.toNat := fun heq => hne (Char.toNat_inj.1 heq.symm)
      have h48 : '0'.toNat = 48 := rfl
      refine iff_of_true ?_ fun heq => hne (List.cons.inj heq).1
      omega

/-- SCAN reads what `keys` sends, or refuses the count. A pattern that is a lone star is none. -/
theorem scanOptions_params (count : Int) (pattern : Sds) :
    (∃ opts, scanOptions (scanParams count pattern) {} = .ok opts ∧
      opts.pat = if pattern = ['*'] then none else some pattern) ∨
    ∃ text, scanOptions (scanParams count pattern) {} = .error (.error text) := by
  have hcountName : strcaseeq "COUNT".toList "count" = true := by decide
  have hmatchCount : ¬ strcaseeq "MATCH".toList "count" = true := by decide
  have hmatchName : strcaseeq "MATCH".toList "match" = true := by decide
  rw [scanParams, scanOptions, if_pos hcountName]
  cases string2ll (decimal count) with
  | none => exact .inr ⟨_, rfl⟩
  | some n =>
    simp only
    split
    · exact .inr ⟨_, rfl⟩
    · left
      rw [scanOptions, if_neg hmatchCount, if_pos hmatchName, scanOptions]
      exact ⟨_, rfl, rfl⟩

/-! ## One key -/

/-- The key is one that SCAN is asked for. -/
def Region.Matches (r : Region) (key : Sds) : Prop := Keyspace.Passes (r.keyPrefix ++ ['*']) key

/-- All characters stand for themselves in a pattern, and none is the terminator. -/
def Plain (name : Sds) : Prop := ∀ x ∈ name, x ∉ [NUL, '*', '?', '[', '\\']

theorem Region.matches_iff {r : Region} (h : Plain r.keyPrefix) {key : Sds} :
    r.Matches key ↔ r.keyPrefix <+: key := by
  rw [Matches, Keyspace.Passes]
  split
  · next hkey =>
    subst hkey
    rw [List.prefix_nil]
    cases hq : r.keyPrefix with
    | nil => exact iff_of_true rfl rfl
    | cons x q =>
      rw [hq, Plain, List.forall_mem_cons] at h
      have hx : ¬ x = NUL ∧ ¬ x = '*' ∧ ¬ x = '?' ∧ ¬ x = '[' ∧ ¬ x = '\\' := by simpa using h.1
      refine iff_of_false ?_ (List.cons_ne_nil x q)
      simp [stringmatchlen, matchLoop, sameChar, hx]
  · exact glob_prefix fun x hx hmem => h x hx (List.mem_cons_of_mem NUL hmem)

/-- Where the cursor stands, the key is still to come. -/
def Ahead (hash : Sds → BitVec 64) (key cursor : Sds) : Prop :=
  ∃ v : BitVec 64, cursor = decimal v.toNat ∧ Cursor.rank v ≤ Cursor.rank (hash key)

/-- A `keys` or `clear` that does not miss the key. -/
def Frame.Minds (hash : Sds → BitVec 64) (key : Sds) : Frame → Prop
  | .scan _ cursor keys => key ∈ keys ∨ Ahead hash key cursor
  | .clear keys => key ∈ keys
  | .returned (.keys keys) => key ∈ keys
  | .values _ _ | .returned (.values _) | .threw => True
  | _ => False

theorem Frame.minds_start {key : Sds} {purpose : Purpose} : (scan purpose ['0'] []).Minds hash key :=
  .inr ⟨0, rfl, by rw [Cursor.rank_zero]; exact Nat.zero_le _⟩

theorem Frame.minds_nextClear {key : Sds} {keys : List Sds} (h : key ∈ keys) :
    (nextClear keys).Minds hash key := by
  rw [nextClear, if_neg (by simpa using List.ne_nil_of_mem h)]
  exact h

theorem Frame.minds_nextValues {key : Sds} {keys vs : List Sds} : (nextValues keys vs).Minds hash key := by
  rw [nextValues]
  split
  · trivial
  · trivial

theorem Frame.minds_scanned {key : Sds} {keys : List Sds} (h : key ∈ keys) (purpose : Purpose) :
    (scanned keys purpose).Minds hash key := by
  cases purpose with
  | clear => exact minds_nextClear h
  | keys => exact h
  | values => exact minds_nextValues

/-- A SCAN of the method, with the key still ahead or in its reply. -/
theorem Frame.minds_receives_scan {key : Sds} {keys page : List Sds} {purpose : Purpose} {cursor : Sds}
    {next : BitVec 64} {r : Region} {i : Nat}
    (h : key ∈ keys ∨ key ∈ page ∨ next ≠ 0 ∧ Cursor.rank next ≤ Cursor.rank (hash key)) :
    ((scan purpose cursor keys).receives deserializes r i (.scan (decimal next.toNat) page)).Minds hash key := by
  rw [receives]
  have hnext : next ≠ 0 → next.toNat ≠ 0 := fun hne hzero => hne (BitVec.eq_of_toNat_eq hzero)
  split
  · rcases h with h | h | ⟨-, h⟩
    · exact .inl (List.mem_append_left _ h)
    · exact .inl (List.mem_append_right _ h)
    · exact .inr ⟨next, rfl, h⟩
  · next hend =>
    rw [compareTo_zero] at hend
    refine minds_scanned ?_ purpose
    rcases h with h | h | ⟨hne, -⟩
    · exact List.mem_append_left _ h
    · exact List.mem_append_right _ h
    · exact absurd (hnext hne) hend

theorem Frame.minds_receives_mem {key : Sds} {keys : List Sds} {purpose : Purpose} {cursor : Sds} {r : Region}
    {i : Nat} (h : key ∈ keys) (reply : Reply) :
    ((scan purpose cursor keys).receives deserializes r i reply).Minds hash key := by
  cases reply with
  | scan next page =>
    rw [receives]
    split
    · exact .inl (List.mem_append_left _ h)
    · exact minds_scanned (List.mem_append_left _ h) purpose
  | _ => trivial

/-- A cursor that is refused reads nothing. -/
def AlignedCursor (d : Dict Sds Robj) : Option (BitVec 64) → Prop
  | some v => d.Aligned v
  | none => True

instance (d : Dict Sds Robj) : ∀ cursor, Decidable (AlignedCursor d cursor)
  | some v => inferInstanceAs (Decidable (d.Aligned v))
  | none => inferInstanceAs (Decidable True)

/-- The cursor the caller sends next is aligned. -/
def Caller.Aligned (d : Dict Sds Robj) : Caller → Prop
  | .client _ (.scan _ cursor _) => AlignedCursor d (parseScanCursor cursor)
  | _ => True

instance (d : Dict Sds Robj) (c : Caller) : Decidable (c.Aligned d) := by
  cases c with
  | others => exact inferInstanceAs (Decidable True)
  | client r f =>
    cases f with
    | scan purpose cursor keys => exact inferInstanceAs (Decidable (AlignedCursor d (parseScanCursor cursor)))
    | _ => exact inferInstanceAs (Decidable True)

/-- A key that is there after a SCAN was there for it. -/
theorem scans_of_here {u u' : Up} {now : Int} {cursor : Sds} {args : List Sds} {reply : Reply} {key : Sds} {r : Region}
    (hclock : u'.clock = now) (hhist : u'.history = u.history ++ [(now, .scan cursor args, reply)])
    (hkey : r.Matches key) (hhere : here (.ok u') key ≠ none) :
    ((keyspace u.history).left now).Scans
      (if r.keyPrefix ++ ['*'] = ['*'] then none else some (r.keyPrefix ++ ['*'])) key := by
  rw [here_command hclock hhist] at hhere
  refine ⟨?_, ?_⟩
  · rw [Option.isSome_iff_ne_none]
    intro hnone
    exact hhere (by rw [Keyspace.step]; simp only; rw [hnone]; rfl)
  · intro p hp
    split at hp
    · exact absurd hp.symm (Option.some_ne_none p)
    · obtain rfl := Option.some.inj hp
      exact hkey

/-- A step of a method that does not miss the key, if the key is there after it. -/
theorem minds_step {x : Choice} {u : Up} {r : Region} {f : Frame} {c' : Caller} {s' : Except Abort Up}
    {es : List Sent} {key : Sds} (h : ∃ s, Follows hash u s)
    (hfits : ∀ j ∈ (Caller.client r f).job x, serveFits (.ok u) (x.moment, j))
    (hstep : step hash deserializes x (.ok u) (.client r f) = some (s', c', es)) (hkey : r.Matches key)
    (hhere : here s' key ≠ none) (haligned : (Caller.client r f).Aligned u.db.dict) (hm : f.Minds hash key) :
    ∃ f', c' = .client r f' ∧ f'.Minds hash key := by
  obtain ⟨u', rfl, -, -, hclock, hserved⟩ := step_spec h hfits hstep
  cases hserved with
  | @command _ cmd reply hjob hserve hhist hanswer =>
    have hsends := Caller.sends_of_job hjob
    refine ⟨_, rfl, ?_⟩
    cases f with
    | scan purpose cursor keys =>
      obtain rfl := Option.some.inj hsends
      have hscans := scans_of_here hclock hhist hkey hhere
      rcases hm with hmem | ⟨v, rfl, hahead⟩
      · exact Frame.minds_receives_mem hmem reply
      · have hparse : parseScanCursor (decimal v.toNat) = some v := by
          rw [parseScanCursor_decimal v.isLt, BitVec.ofNat_toNat, BitVec.setWidth_eq]
        rcases scanOptions_params r.count (r.keyPrefix ++ ['*']) with ⟨opts, hopts, hpat⟩ | ⟨text, herr⟩
        · obtain ⟨s, hs⟩ := h
          obtain ⟨u'', next, page, hserve', hcover⟩ := hs.scan hopts (hfits _ rfl)
          obtain ⟨rfl, rfl⟩ : u'' = u' ∧ Reply.scan (decimal next.toNat) page = reply := by
            simpa using hserve'.symm.trans hserve
          rw [← hpat] at hscans
          rw [Caller.Aligned, hparse] at haligned
          exact Frame.minds_receives_scan (.inr (hcover key hscans haligned hahead))
        · rw [Keyspace.Answers, hparse, herr] at hanswer
          subst hanswer
          trivial
    | clear keys =>
      obtain ⟨k, hk, rfl⟩ := Option.map_eq_some_iff.1 hsends
      have hne : key ≠ k := by
        rintro rfl
        rw [here_command hclock hhist, Keyspace.step, Keyspace.del_of_mem _ (List.mem_singleton.2 rfl)] at hhere
        exact hhere rfl
      obtain ⟨n, hn⟩ : ∃ n, reply = .integer n := ⟨_, hanswer⟩
      subst hn
      refine Frame.minds_nextClear ?_
      obtain ⟨j, hj⟩ := List.mem_iff_getElem?.1 hm
      refine List.mem_eraseIdx_iff_getElem?.2 ⟨j, ?_, hj⟩
      rintro rfl
      exact hne (Option.some.inj (hj.symm.trans hk))
    | values keys vs =>
      cases reply with
      | nil | bulk v => exact Frame.minds_nextValues
      | _ => trivial
    | returned _ | threw => exact absurd hsends.symm (Option.some_ne_none _)
    | _ => exact hm.elim

/-! ## Keys that are not there -/

/-- SCAN returns only keys that are there and match. -/
theorem scans_of_answer {ks : Keyspace} {now : Int} {r : Region} {cursor next key : Sds} {page : List Sds}
    (h : ks.Answers now (.scan cursor (scanParams r.count (r.keyPrefix ++ ['*']))) (.scan next page))
    (hmem : key ∈ page) : ks key ≠ none ∧ r.Matches key := by
  rw [Keyspace.Answers] at h
  rcases scanOptions_params r.count (r.keyPrefix ++ ['*']) with ⟨opts, hopts, hpat⟩ | ⟨text, herr⟩
  · cases hparse : parseScanCursor cursor with
    | none =>
      rw [hparse] at h
      exact Reply.noConfusion h
    | some v =>
      rw [hparse, hopts] at h
      obtain ⟨_, _, hreply, hpage⟩ := h
      obtain ⟨-, rfl⟩ := Reply.scan.inj hreply
      obtain ⟨hsome, hmatch⟩ := hpage key hmem
      refine ⟨Option.isSome_iff_ne_none.1 hsome, ?_⟩
      rw [Region.Matches]
      by_cases hstar : r.keyPrefix ++ ['*'] = ['*']
      · rw [hstar]
        exact Keyspace.passes_star key
      · exact hmatch _ (by rw [hpat, if_neg hstar])
  · rw [herr] at h
    cases hparse : parseScanCursor cursor with
    | none | some v =>
      rw [hparse] at h
      exact Reply.noConfusion h

/-- A `keys` that has not come across the key. -/
def Frame.Lacks (key : Sds) : Frame → Prop
  | .scan .keys _ keys => key ∉ keys
  | .returned (.keys keys) => key ∉ keys
  | .threw => True
  | _ => False

/-- A step of a `keys`, if the key does not match or is not there after it. -/
theorem lacks_step {x : Choice} {u : Up} {r : Region} {f : Frame} {c' : Caller} {s' : Except Abort Up}
    {es : List Sent} {key : Sds} (h : ∃ s, Follows hash u s)
    (hfits : ∀ j ∈ (Caller.client r f).job x, serveFits (.ok u) (x.moment, j))
    (hstep : step hash deserializes x (.ok u) (.client r f) = some (s', c', es))
    (hnot : r.Matches key → here s' key = none) (hm : f.Lacks key) : ∃ f', c' = .client r f' ∧ f'.Lacks key := by
  obtain ⟨u', rfl, -, -, hclock, hserved⟩ := step_spec h hfits hstep
  cases hserved with
  | @command _ cmd reply hjob hserve hhist hanswer =>
    have hsends := Caller.sends_of_job hjob
    refine ⟨_, rfl, ?_⟩
    cases f with
    | scan purpose cursor keys =>
      cases purpose with
      | keys =>
        obtain rfl := Option.some.inj hsends
        cases reply with
        | scan next page =>
          have hpage : key ∉ page := by
            intro hmem
            obtain ⟨hhere, hmatch⟩ := scans_of_answer hanswer hmem
            have hnone : ((keyspace u.history).left x.moment.mstime).left x.moment.mstime key = none :=
              (here_command hclock hhist key).symm.trans (hnot hmatch)
            rw [left_left _ (Int.le_refl _)] at hnone
            exact hhere hnone
          have hkeys : key ∉ keys ++ page := fun hmem => (List.mem_append.1 hmem).elim hm hpage
          rw [Frame.receives]
          split
          · exact hkeys
          · exact hkeys
        | _ => trivial
      | _ => exact hm.elim
    | returned _ | threw => exact absurd hsends.symm (Option.some_ne_none _)
    | _ => exact hm.elim

/-! ## Runs -/

/-- A method of the region that has not come across the key. -/
def Caller.Lacks (r : Region) (key : Sds) (c : Caller) : Prop := ∃ f, c = .client r f ∧ f.Lacks key

/-- The SCANs of the thread are aligned. -/
def AlignedAt (i : Nat) (p : Callers) : Label Caller Choice → Prop
  | .run j _ => j = i → ∀ t ∈ p.threads[i]?, ∀ u ∈ p.store.toOption, t.frame.Aligned u.db.dict
  | _ => True

instance (i : Nat) : ∀ (p : Callers) (l : Label Caller Choice), Decidable (AlignedAt i p l)
  | p, .run j _ => inferInstanceAs
    (Decidable (j = i → ∀ t ∈ p.threads[i]?, ∀ u ∈ p.store.toOption, t.frame.Aligned u.db.dict))
  | _, .spawn _ | _, .stop _ => inferInstanceAs (Decidable True)

/-- A method of the region that does not miss the key. -/
def Caller.Minds (hash : Sds → BitVec 64) (r : Region) (key : Sds) (c : Caller) : Prop :=
  ∃ f, c = .client r f ∧ f.Minds hash key

/-- It goes on not to miss the key while the key is there. -/
theorem minds_run {p : Callers} {ls : List (Label Caller Choice)} {i : Nat} {r : Region} {key : Sds}
    (halive : Alive hash p) (hfits : Run.Along (Pool.exec (machine hash deserializes)) Fits p ls)
    (haligned : Run.Along (Pool.exec (machine hash deserializes)) (AlignedAt i) p ls) (hkey : r.Matches key)
    (hhere : Run.Always (Pool.exec (machine hash deserializes)) (fun p => here p.store key ≠ none) p ls)
    {c : Caller} (hstart : p.frames[i]? = some c) (hm : c.Minds hash r key) :
    ∃ c', (Run.run (Pool.exec (machine hash deserializes)) p ls).frames[i]? = some c' ∧ c'.Minds hash r key := by
  have hcond := (hfits.and haligned).and
    ((alive_always halive hfits).along (fun _ _ h => h) |>.and hhere.along_after)
  refine Pool.persists_along ?_ ls hcond hstart hm
  intro p x c s' c' es hth hc hq hstep
  obtain ⟨⟨hfit, haligned⟩, ⟨u, hu, hfollows, -⟩, hafter⟩ := hc
  obtain ⟨f, rfl, hminds⟩ := hq
  obtain ⟨pre, post, hsplit, rfl⟩ := Pool.split_of_getElem? hth
  have hfit := Pool.Guarded.of_run hfit hsplit
  have haligned := haligned rfl _ hth u (by rw [hu]; rfl)
  rw [Pool.exec_run hsplit hstep] at hafter
  rw [hu] at hfit hstep
  exact minds_step hfollows hfit hstep hkey hafter haligned hminds

theorem lacks_run {p : Callers} {ls : List (Label Caller Choice)} {i : Nat} {r : Region} {key : Sds}
    (halive : Alive hash p) (hfits : Run.Along (Pool.exec (machine hash deserializes)) Fits p ls)
    (hnot : r.Matches key →
      Run.Always (Pool.exec (machine hash deserializes)) (fun p => here p.store key = none) p ls)
    {c : Caller} (hstart : p.frames[i]? = some c) (hm : c.Lacks r key) :
    ∃ c', (Run.run (Pool.exec (machine hash deserializes)) p ls).frames[i]? = some c' ∧ c'.Lacks r key := by
  have halways := alive_always halive hfits
  have hafter : Run.Along (Pool.exec (machine hash deserializes))
      (fun p l => r.Matches key → here (p.exec (machine hash deserializes) l).store key = none) p ls := by
    by_cases hkey : r.Matches key
    · exact Run.Along.imp_of_always (fun _ _ _ h _ => h) halways (hnot hkey).along_after
    · exact halways.along fun _ _ _ hmatch => absurd hmatch hkey
  refine Pool.persists_along ?_ ls (hfits.and ((halways.along fun _ _ h => h).and hafter)) hstart hm
  intro p x c s' c' es hth hc hq hstep
  obtain ⟨hfit, ⟨u, hu, hfollows, -⟩, hafter⟩ := hc
  obtain ⟨f, rfl, hlacks⟩ := hq
  obtain ⟨pre, post, hsplit, rfl⟩ := Pool.split_of_getElem? hth
  have hfit := Pool.Guarded.of_run hfit hsplit
  rw [Pool.exec_run hsplit hstep] at hafter
  rw [hu] at hfit hstep
  exact lacks_step hfollows hfit hstep hafter hlacks

/-- **`keys` takes in what is there all the time, and only what is there at some time.** Either way
it goes by the pattern. -/
theorem keys_between (ls ls' : List (Label Caller Choice)) (i : Nat) (r : Region) (key : Sds) (out : List Sds)
    (hfits : Run.Along (Pool.exec (machine hash deserializes)) Fits start (ls ++ ls'))
    (hstart : (after hash deserializes ls).frames[i]? = some (.client r (.scan .keys ['0'] [])))
    (haligned : Run.Along (Pool.exec (machine hash deserializes)) (AlignedAt i) (after hash deserializes ls) ls')
    (hdone : (after hash deserializes (ls ++ ls')).frames[i]? = some (.client r (.returned (.keys out)))) :
    (r.Matches key → Run.Always (Pool.exec (machine hash deserializes)) (fun p => here p.store key ≠ none)
      (after hash deserializes ls) ls' → key ∈ out) ∧
    (key ∈ out → r.Matches key ∧ ¬ Run.Always (Pool.exec (machine hash deserializes))
      (fun p => here p.store key = none) (after hash deserializes ls) ls') := by
  obtain ⟨hbefore, hfits⟩ := Run.along_append.1 hfits
  have halive := alive_after hbefore
  rw [after_append] at hdone
  constructor
  · intro hkey halways
    obtain ⟨_, hend, f, rfl, hminds⟩ := minds_run halive hfits haligned hkey halways hstart
      ⟨_, rfl, Frame.minds_start⟩
    obtain ⟨-, rfl⟩ := Caller.client.inj (Option.some.inj (hend.symm.trans hdone))
    exact hminds
  · intro hmem
    by_contra hnot
    rw [not_and, not_not] at hnot
    obtain ⟨_, hend, f, rfl, hlacks⟩ := lacks_run halive hfits hnot hstart ⟨_, rfl, List.not_mem_nil⟩
    obtain ⟨-, rfl⟩ := Caller.client.inj (Option.some.inj (hend.symm.trans hdone))
    exact hlacks hmem

/-! ### Two keys and another -/

/-- The keys that start with `c:`. -/
def cRegion : Region := ⟨['c', ':'], 0, 100⟩

theorem cRegion_matches (key : Sds) : cRegion.Matches ('c' :: ':' :: key) := by
  have hplain : Plain cRegion.keyPrefix := by simp [Plain, cRegion, NUL]
  exact (Region.matches_iff hplain).2 (List.prefix_append ['c', ':'] key)

def byLength (key : Sds) : BitVec 64 := BitVec.ofNat 64 key.length

def readsAll (_ : Sds) : Bool := true

def other (mstime : Int) (c : Command) : Label Caller Choice := .run 0 ⟨⟨mstime, true⟩, 0, .command c⟩

def method (mstime : Int) : Label Caller Choice := .run 1 ⟨⟨mstime, true⟩, 0, .tryResizeHashTables⟩

/-- Another program stores two keys of the region and one that is not, then a method starts. -/
def beforeScan (purpose : Purpose) : List (Label Caller Choice) :=
  [.spawn .others, other 1 (.set ['c', ':', 'a'] ['1'] []), other 2 (.set ['c', ':', 'b'] ['2'] []),
    other 3 (.set ['d'] ['3'] []), .spawn (.client cRegion (.scan purpose ['0'] []))]

theorem keys_between_two :
    (cRegion.Matches ['c', ':', 'a'] → Run.Always (Pool.exec (machine byLength readsAll))
      (fun p => here p.store ['c', ':', 'a'] ≠ none) (after byLength readsAll (beforeScan .keys)) [method 4] →
      ['c', ':', 'a'] ∈ [['c', ':', 'b'], ['c', ':', 'a']]) ∧
    (['c', ':', 'a'] ∈ [['c', ':', 'b'], ['c', ':', 'a']] → cRegion.Matches ['c', ':', 'a'] ∧
      ¬ Run.Always (Pool.exec (machine byLength readsAll)) (fun p => here p.store ['c', ':', 'a'] = none)
        (after byLength readsAll (beforeScan .keys)) [method 4]) :=
  keys_between (beforeScan .keys) [method 4] 1 cRegion ['c', ':', 'a'] _ (by decide +kernel) (by decide +kernel)
    (by decide +kernel) (by decide +kernel)

/-- **A `clear` leaves only what was stored since it began.** A key it leaves was away at some moment
after it had begun, and then a command that stores the key brought it back. -/
theorem clear_leaves (ls ls' : List (Label Caller Choice)) (i : Nat) (r : Region) (key : Sds)
    (hfits : Run.Along (Pool.exec (machine hash deserializes)) Fits start (ls ++ ls'))
    (hstart : (after hash deserializes ls).frames[i]? = some (.client r (.scan .clear ['0'] [])))
    (haligned : Run.Along (Pool.exec (machine hash deserializes)) (AlignedAt i) (after hash deserializes ls) ls')
    (hdone : (after hash deserializes (ls ++ ls')).frames[i]? = some (.client r (.returned .void)))
    (hkey : r.Matches key) (hhere : here (after hash deserializes (ls ++ ls')).store key ≠ none) :
    ∃ pre l post e, ls' = pre ++ l :: post ∧ here (after hash deserializes (ls ++ pre)).store key = none ∧
      (after hash deserializes (ls ++ pre ++ [l])).log = (after hash deserializes (ls ++ pre)).log ++ [e] ∧
      e.2.2.1.stores key = true ∧ here (after hash deserializes (ls ++ pre ++ [l])).store key ≠ none := by
  obtain ⟨hbefore, hfits⟩ := Run.along_append.1 hfits
  have halive := alive_after hbefore
  rw [after_append] at hdone hhere
  have hturn : ¬ Run.Always (Pool.exec (machine hash deserializes)) (fun p => here p.store key ≠ none)
      (after hash deserializes ls) ls' := by
    -- If the key is always there, the method cannot be through with it.
    intro halways
    obtain ⟨_, hend, f, rfl, hminds⟩ := minds_run halive hfits haligned hkey halways hstart
      ⟨_, rfl, Frame.minds_start⟩
    obtain ⟨-, rfl⟩ := Caller.client.inj (Option.some.inj (hend.symm.trans hdone))
    exact hminds.elim
  obtain ⟨pre, l, post, rfl, hnone, hback⟩ := Run.exists_turn hturn hhere
  rw [not_not] at hnone
  obtain ⟨hpre, hl, -⟩ := Run.along_append.1 hfits
  obtain ⟨e, hlog, hstores⟩ := stored_exec (alive_always halive hpre).last hl hnone hback
  have hafter : after hash deserializes (ls ++ pre ++ [l]) =
      (after hash deserializes (ls ++ pre)).exec (machine hash deserializes) l := after_append ..
  refine ⟨pre, l, post, e, rfl, ?_⟩
  rw [hafter, after_append]
  exact ⟨hnone, hlog, hstores, hback⟩

/-- The other program stores a key again that has been deleted already. -/
def duringClear : List (Label Caller Choice) :=
  [method 4, method 5, other 6 (.set ['c', ':', 'b'] ['4'] []), method 7]

theorem clear_leaves_two :
    ∃ pre l post e, duringClear = pre ++ l :: post ∧
      here (after byLength readsAll (beforeScan .clear ++ pre)).store ['c', ':', 'b'] = none ∧
      (after byLength readsAll (beforeScan .clear ++ pre ++ [l])).log =
        (after byLength readsAll (beforeScan .clear ++ pre)).log ++ [e] ∧
      e.2.2.1.stores ['c', ':', 'b'] = true ∧
      here (after byLength readsAll (beforeScan .clear ++ pre ++ [l])).store ['c', ':', 'b'] ≠ none :=
  clear_leaves (beforeScan .clear) duringClear 1 cRegion ['c', ':', 'b'] (by decide +kernel) (by decide +kernel)
    (by decide +kernel) (by decide +kernel) (cRegion_matches ['b']) (by decide +kernel)

end ShiroRedis
