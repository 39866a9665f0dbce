/-
Each command of the server does to the map that is left what it means, and
answers what it means; so do the jobs the server gives itself, which mean
nothing.
-/
import CfsShop.Redis.Store
import CfsShop.Redis.Keyspace

namespace Redis

/-! ## Objects -/

theorem text_int {n : Int} (h : LLONG_MIN ≤ n ∧ n ≤ LLONG_MAX) : (Robj.int n).text = decimal n := by
  have hlen := length_decimal h
  rw [Robj.text, ll2string_eq (by rw [List.length_replicate]; omega)]

/-- A text is still there after it has been made a number. -/
theorem text_tryObjectEncoding (s : Sds) : (tryObjectEncoding s).text = s := by
  rw [tryObjectEncoding]
  split
  · cases hv : string2ll s with
    | none => rfl
    | some n =>
      obtain ⟨hn, hs⟩ := string2ll_eq_some.1 hv
      simp only
      rw [text_int hn, ← hs]
  · rfl

theorem fits_tryObjectEncoding (s : Sds) : (tryObjectEncoding s).Fits := by
  rw [tryObjectEncoding]
  split
  · cases hv : string2ll s with
    | none => trivial
    | some n => exact (string2ll_eq_some.1 hv).1
  · trivial

/-- The number of a text is the number it is kept as. -/
theorem getLongLongFromObject_eq {o : Option Robj} (h : ∀ v, o = some v → v.Fits) :
    getLongLongFromObject o = (o.map Robj.text).elim (some 0) string2ll := by
  cases o with
  | none => rfl
  | some v =>
    cases v with
    | str s => rfl
    | int n =>
      have hn : LLONG_MIN ≤ n ∧ n ≤ LLONG_MAX := h _ rfl
      rw [Option.map_some, text_int hn]
      exact (string2ll_eq_some.2 ⟨hn, rfl⟩).symm

theorem wrap64_eq {n : Int} (h : LLONG_MIN ≤ n ∧ n ≤ LLONG_MAX) : wrap64 n = n := by
  rw [LLONG_MIN, LLONG_MAX] at h
  rw [wrap64, BitVec.toInt_ofInt, Int.bmod_eq_of_le_mul_two]
  · omega
  · omega

theorem wrap64_fits (n : Int) : LLONG_MIN ≤ wrap64 n ∧ wrap64 n ≤ LLONG_MAX := by
  have hlo := (BitVec.ofInt 64 n).le_toInt
  have hhi := (BitVec.ofInt 64 n).toInt_lt
  rw [wrap64, LLONG_MIN, LLONG_MAX]
  omega

theorem getLongLongFromObject_fits {o : Option Robj} (h : ∀ v, o = some v → v.Fits) {n : Int}
    (hn : getLongLongFromObject o = some n) : LLONG_MIN ≤ n ∧ n ≤ LLONG_MAX := by
  rw [getLongLongFromObject_eq h] at hn
  cases ho : o.map Robj.text with
  | none =>
    rw [ho] at hn
    obtain rfl : 0 = n := Option.some.inj hn
    decide
  | some s =>
    rw [ho] at hn
    exact (string2ll_eq_some.1 hn).1

/-- An increment that is not refused does not overflow. -/
theorem add_fits {old incr : Int} (hold : LLONG_MIN ≤ old ∧ old ≤ LLONG_MAX)
    (hincr : LLONG_MIN ≤ incr ∧ incr ≤ LLONG_MAX) (h : overflows old incr = false) :
    LLONG_MIN ≤ old + incr ∧ old + incr ≤ LLONG_MAX := by
  simp only [overflows, Bool.or_eq_false_iff, Bool.and_eq_false_iff, decide_eq_false_iff_not] at h
  rw [LLONG_MIN, LLONG_MAX] at *
  omega

/-! ## The map that is left -/

theorem stays_mono {now now' : Int} (h : now ≤ now') {e : Sds × Option Int} (hstay : stays now' e = true) :
    stays now e = true := by
  rw [stays, Option.all_eq_true] at hstay ⊢
  intro t ht
  have hle := hstay t ht
  simp only [decide_eq_true_eq] at hle ⊢
  omega

namespace Store

/-- What a client sees of a store. -/
def seen (s : Store) (now : Int) : Keyspace := fun key =>
  ((s.dict key).map fun o => (o.text, s.expires key)).filter (stays now)

theorem seen_put (s : Store) (now : Int) (key : Sds) (val : Option Robj) (t : Option Int) :
    (s.put key val t).seen now =
      Function.update (s.seen now) key ((val.map fun o => (o.text, t)).filter (stays now)) := by
  funext key'
  rw [seen, dict_put, expires_put, Function.update_apply]
  split
  · rfl
  · rfl

theorem seen_erase (s : Store) (now : Int) (key : Sds) :
    (s.erase key).seen now = (s.seen now).remove key := seen_put ..

/-- A value that stays. -/
theorem seen_put_some (s : Store) (now : Int) (key : Sds) (o : Robj) {t : Option Int}
    (ht : ∀ u, t = some u → now ≤ u) :
    (s.put key (some o) t).seen now = (s.seen now).store key o.text t := by
  rw [seen_put, Option.map_some, Option.filter_some, if_pos]
  · rfl
  · rw [stays]
    cases t with
    | none => rfl
    | some u => simpa using ht u rfl

theorem seen_eq_none_of_due {s : Store} {now : Int} {key : Sds} (h : s.due now key = true) :
    s.seen now key = none := by
  rw [due] at h
  cases ht : s.expires key with
  | none =>
    rw [ht] at h
    exact Bool.noConfusion h
  | some t =>
    rw [ht, Option.any_some, decide_eq_true_eq] at h
    rw [seen, ht]
    cases s.dict key with
    | none => rfl
    | some o =>
      rw [Option.map_some, Option.filter_some, if_neg]
      simpa [stays] using h

theorem seen_purge (s : Store) (now : Int) (key : Sds) : (s.purge now key).seen now = s.seen now := by
  rw [purge]
  split
  · next h =>
    rw [seen_erase, Keyspace.remove, ← seen_eq_none_of_due h, Function.update_eq_self]
  · rfl

theorem le_of_not_due {s : Store} {now : Int} {key : Sds} (h : s.due now key = false) {t : Int}
    (ht : s.expires key = some t) : now ≤ t := by
  rw [due, ht, Option.any_some, decide_eq_false_iff_not, Int.not_lt] at h
  exact h

/-- Whatever is stored under a key whose time has not come is seen. -/
theorem seen_of_not_due {s : Store} {now : Int} {key : Sds} (h : s.due now key = false) :
    s.seen now key = (s.dict key).map fun o => (o.text, s.expires key) := by
  rw [seen]
  cases ho : s.dict key with
  | none => rfl
  | some o =>
    rw [Option.map_some, Option.filter_some, if_pos]
    rw [stays]
    cases ht : s.expires key with
    | none => rfl
    | some t => simpa using le_of_not_due h ht

/-- Once a key is rid of a value whose time has come, what is stored is seen. -/
theorem seen_key (s : Store) (now : Int) (key : Sds) :
    s.seen now key =
      ((s.purge now key).dict key).map fun o => (o.text, (s.purge now key).expires key) := by
  rw [← seen_purge s now key]
  exact seen_of_not_due (s.due_purge now key)

theorem isSome_seen (s : Store) (now : Int) (key : Sds) :
    (s.seen now key).isSome = ((s.purge now key).dict key).isSome := by
  rw [seen_key, Option.isSome_map]

theorem seen_left (s : Store) {now now' : Int} (h : now ≤ now') : (s.seen now).left now' = s.seen now' := by
  funext key
  rw [Keyspace.left, seen, seen, Option.filter_filter]
  congr 1
  funext e
  rw [Bool.and_eq_right_iff_imp]
  exact stays_mono h

end Store

/-! ## Commands -/

/-- The program has the effect and the reply, and stores one more key at most. -/
def Serves (server : Server) (n : Nat) (s : Store) (x : Call Reply) (out : Keyspace × Reply) : Prop :=
  ∃ s', Prog.Gives (Holds server.hash n s) x out.2 (Holds server.hash (n + 1) s') ∧
    s'.seen server.mstime = out.1

section
variable {server : Server} {n : Nat} {s s' : Store} {key : Sds}

/-- A command that adds no key. -/
theorem Serves.of_gives {x : Call Reply} {reply : Reply} {ks : Keyspace}
    (h : Prog.Gives (Holds server.hash n s) x reply (Holds server.hash n s'))
    (hs : s'.seen server.mstime = ks) : Serves server n s x (ks, reply) :=
  ⟨s', gives_succ h, hs⟩

theorem Serves.pure (reply : Reply) : Serves server n s (pure reply) (s.seen server.mstime, reply) :=
  .of_gives (Prog.Gives.pure _) rfl

theorem gives_getCommand : Prog.Gives (Holds server.hash n s) (getCommand server key)
    ((s.seen server.mstime).get key) (Holds server.hash n (s.purge server.mstime key)) := by
  rw [getCommand, Keyspace.get, s.seen_key]
  refine gives_lookupKeyRead.bind ?_
  cases (s.purge server.mstime key).dict key with
  | none => exact .pure _
  | some o => exact .pure _

theorem serves_get : Serves server n s (getCommand server key)
    (s.seen server.mstime, (s.seen server.mstime).get key) :=
  .of_gives gives_getCommand (s.seen_purge server.mstime key)

/-! ### SET -/

theorem gives_refusedNX (server : Server) (n : Nat) (s : Store) (key : Sds) (nx : Bool) :
    ∃ s', Prog.Gives (Holds server.hash n s) (refusedNX server nx key)
        (nx && (s.seen server.mstime key).isSome) (Holds server.hash n s') ∧
      s'.seen server.mstime = s.seen server.mstime := by
  rw [refusedNX]
  cases nx with
  | false => exact ⟨s, .pure _, rfl⟩
  | true =>
    refine ⟨_, ?_, s.seen_purge server.mstime key⟩
    rw [if_pos rfl, Bool.true_and, s.isSome_seen]
    exact gives_lookupKeyWrite.bind (.pure _)

theorem gives_refusedXX (server : Server) (n : Nat) (s : Store) (key : Sds) (xx : Bool) :
    ∃ s', Prog.Gives (Holds server.hash n s) (refusedXX server xx key)
        (xx && (s.seen server.mstime key).isNone) (Holds server.hash n s') ∧
      s'.seen server.mstime = s.seen server.mstime := by
  rw [refusedXX]
  cases xx with
  | false => exact ⟨s, .pure _, rfl⟩
  | true =>
    refine ⟨_, ?_, s.seen_purge server.mstime key⟩
    rw [if_pos rfl, Bool.true_and, ← Option.not_isSome, s.isSome_seen, Option.not_isSome]
    exact gives_lookupKeyWrite.bind (.pure _)

/-- The key gets the value, and perhaps a time to live. -/
theorem gives_setKeyExpire (hn : n + 1 < 2 ^ 62) (hnow : 0 ≤ server.mstime) (val : Sds)
    {ttl : Option Int} (httl : ∀ ms, ttl = some ms → 0 ≤ ms ∧ server.mstime + ms ≤ LLONG_MAX) (reply : Reply) :
    ∃ s', Prog.Gives (Holds server.hash n s)
        (do
          setKey server key (tryObjectEncoding val)
          match ttl with
          | some milliseconds => setExpire server key (wrap64 (server.mstime + milliseconds))
          | none => Pure.pure ()
          return reply) reply (Holds server.hash (n + 1) s') ∧
      s'.seen server.mstime = (s.seen server.mstime).store key val (ttl.map (server.mstime + ·)) := by
  have hset : Prog.Gives (Holds server.hash n s) (setKey server key _) _ (Holds server.hash (n + 1) _) :=
    gives_setKey (Nat.lt_of_succ_lt hn) (fits_tryObjectEncoding val)
  cases ttl with
  | none =>
    refine ⟨_, hset.bind (.pure _), ?_⟩
    rw [Store.seen_put_some _ _ _ _ fun _ hu => absurd hu.symm (Option.some_ne_none _), Store.seen_purge,
      text_tryObjectEncoding, Option.map_none]
  | some ms =>
    obtain ⟨hpos, hmax⟩ := httl ms rfl
    have hrange : LLONG_MIN ≤ server.mstime + ms ∧ server.mstime + ms ≤ LLONG_MAX :=
      ⟨by rw [LLONG_MIN]; omega, hmax⟩
    refine ⟨_, hset.bind ((gives_setExpire hn ?_ ?_).bind (.pure _)), ?_⟩
    · rw [Store.dict_put, if_pos rfl]
      exact Option.some_ne_none _
    · rw [wrap64_eq hrange]
      exact ⟨by omega, hmax⟩
    · rw [Store.put_put, Store.dict_put, if_pos rfl, wrap64_eq hrange, Store.seen_put_some, Store.seen_purge,
        text_tryObjectEncoding, Option.map_some]
      intro u hu
      obtain rfl := Option.some.inj hu
      omega

theorem serves_setGeneric (hn : n + 1 < 2 ^ 62) (hnow : 0 ≤ server.mstime) (val : Sds)
    (name : String) (nx xx : Bool) (ex : Option Sds) (unit : TimeUnit)
    (hfits : ttlFits server.mstime name ex unit = true) (okReply abortReply : Reply) :
    Serves server n s
      (setGenericCommand server name nx xx key (tryObjectEncoding val) ex unit okReply abortReply)
      ((s.seen server.mstime).setGeneric server.mstime name nx xx key val ex unit okReply abortReply) := by
  rw [setGenericCommand, Keyspace.setGeneric]
  rw [ttlFits] at hfits
  cases httl : expireTime name ex unit with
  | error e => exact .pure e
  | ok ttl =>
    rw [httl] at hfits
    simp only
    obtain ⟨s1, hnx, hs1⟩ := gives_refusedNX server n s key nx
    obtain ⟨s2, hxx, hs2⟩ := gives_refusedXX server n s1 key xx
    rw [hs1] at hxx hs2
    cases hno : nx && (s.seen server.mstime key).isSome with
    | true =>
      rw [hno] at hnx
      exact .of_gives (hnx.bind (.pure _)) hs1
    | false =>
      rw [hno] at hnx
      cases hno' : xx && (s.seen server.mstime key).isNone with
      | true =>
        rw [hno'] at hxx
        exact .of_gives (hnx.bind (hxx.bind (.pure _))) hs2
      | false =>
        rw [hno'] at hxx
        have httl' : ∀ ms, ttl = some ms → 0 ≤ ms ∧ server.mstime + ms ≤ LLONG_MAX := by
          rintro ms rfl
          simpa using hfits
        obtain ⟨s3, hset, hs3⟩ := gives_setKeyExpire (s := s2) hn hnow val httl' okReply
        rw [hs2] at hs3
        exact ⟨s3, hnx.bind (hxx.bind hset), hs3⟩

/-! ### Keys -/

theorem serves_getset (hn : n + 1 < 2 ^ 62) (val : Sds) :
    Serves server n s (getsetCommand server key val)
      ((s.seen server.mstime).store key val none, (s.seen server.mstime).get key) := by
  refine ⟨_, gives_getCommand.bind ((gives_setKey (Nat.lt_of_succ_lt hn)
    (fits_tryObjectEncoding val)).bind (.pure _)), ?_⟩
  rw [Store.seen_put_some _ _ _ _ fun _ hu => absurd hu.symm (Option.some_ne_none _), Store.seen_purge,
    Store.seen_purge, text_tryObjectEncoding]

theorem gives_delLoop (keys : List Sds) : ∀ (s : Store) (numdel : Int),
    ∃ s', Prog.Gives (Holds server.hash n s) (delLoop server keys numdel)
        (Keyspace.del keys numdel (s.seen server.mstime)).2 (Holds server.hash n s') ∧
      s'.seen server.mstime = (Keyspace.del keys numdel (s.seen server.mstime)).1 := by
  induction keys with
  | nil => exact fun s numdel => ⟨s, .pure _, rfl⟩
  | cons key keys ih =>
    intro s numdel
    rw [delLoop, Keyspace.del, s.isSome_seen]
    obtain ⟨s', hrest, hs'⟩ := ih ((s.purge server.mstime key).erase key)
      (if ((s.purge server.mstime key).dict key).isSome then numdel + 1 else numdel)
    rw [Store.seen_erase, Store.seen_purge] at hrest hs'
    exact ⟨s', gives_expireIfNeeded.bind (gives_dbSyncDelete.bind hrest), hs'⟩

theorem gives_existsLoop (keys : List Sds) : ∀ (s : Store) (count : Nat),
    ∃ s', Prog.Gives (Holds server.hash n s) (existsLoop server keys count)
        (.integer (count + keys.countP fun key => (s.seen server.mstime key).isSome : Nat))
        (Holds server.hash n s') ∧
      s'.seen server.mstime = s.seen server.mstime := by
  induction keys with
  | nil => exact fun s count => ⟨s, .pure _, rfl⟩
  | cons key keys ih =>
    intro s count
    rw [existsLoop, List.countP_cons, s.isSome_seen]
    obtain ⟨s', hrest, hs'⟩ := ih (s.purge server.mstime key)
      (if ((s.purge server.mstime key).dict key).isSome then count + 1 else count)
    rw [Store.seen_purge] at hrest hs'
    refine ⟨s', gives_expireIfNeeded.bind (gives_lookupKey.bind ?_), hs'⟩
    generalize ((s.purge server.mstime key).dict key).isSome = present at hrest ⊢
    cases present with
    | true =>
      rw [if_pos rfl, Nat.add_right_comm, Nat.add_assoc] at hrest
      exact hrest
    | false => exact hrest

theorem serves_exists (keys : List Sds) :
    Serves server n s (existsCommand server keys)
      (s.seen server.mstime, .integer (keys.countP fun key => (s.seen server.mstime key).isSome)) := by
  obtain ⟨s', hgives, hs'⟩ := gives_existsLoop keys s 0
  rw [Nat.zero_add] at hgives
  exact .of_gives hgives hs'

/-! ### Times -/

theorem serves_expireGeneric (hn : n + 1 < 2 ^ 62) (hnow : 0 ≤ server.mstime) (param : Sds) (basetime : Int)
    (unit : TimeUnit) (hfits : timeFits param basetime unit = true) :
    Serves server n s (expireGenericCommand server key param basetime unit)
      ((s.seen server.mstime).expire server.mstime key param basetime unit) := by
  rw [expireGenericCommand, Keyspace.expire]
  rw [timeFits] at hfits
  cases hparam : string2ll param with
  | none => exact .pure _
  | some ms =>
    rw [hparam] at hfits
    have hrange : LLONG_MIN ≤ unit.toMillis ms + basetime ∧ unit.toMillis ms + basetime ≤ LLONG_MAX := by
      simpa using hfits
    simp only
    rw [s.seen_key, wrap64_eq hrange]
    generalize unit.toMillis ms + basetime = t at hrange ⊢
    have hlookup : Prog.Gives _ (lookupKeyWrite server key) _ (Holds server.hash n _) := gives_lookupKeyWrite (s := s)
    have hseen := s.seen_purge server.mstime key
    generalize s.purge server.mstime key = s1 at hlookup hseen ⊢
    cases ho : s1.dict key with
    | none =>
      rw [ho] at hlookup
      exact .of_gives (hlookup.bind (.pure _)) hseen
    | some o =>
      rw [ho] at hlookup
      have hkey : s1.dict key ≠ none := ho ▸ Option.some_ne_none o
      rw [Option.map_some]
      simp only
      by_cases hpast : t ≤ server.mstime
      · simp only [if_pos hpast]
        refine .of_gives (hlookup.bind ?_) (hseen ▸ s1.seen_erase _ key)
        rw [Option.isNone_some, if_neg Bool.false_ne_true]
        exact gives_dbSyncDelete.bind ((gives_serverAssert (Option.isSome_iff_ne_none.2 hkey)).bind (.pure _))
      · simp only [if_neg hpast]
        have hset : Prog.Gives (Holds server.hash n s1) (setExpire server key t) ()
            (Holds server.hash n (s1.put key (s1.dict key) (some t))) :=
          gives_setExpire (Nat.lt_of_succ_lt hn) hkey ⟨by omega, hrange.2⟩
        refine .of_gives (hlookup.bind (hset.bind (.pure _))) ?_
        rw [ho, Store.seen_put_some, hseen]
        intro u hu
        obtain rfl := Option.some.inj hu
        omega

theorem serves_ttl (hnow : 0 ≤ server.mstime) (outputMs : Bool) :
    Serves server n s (ttlGenericCommand server key outputMs)
      (s.seen server.mstime, (s.seen server.mstime).ttl server.mstime key outputMs) := by
  refine .of_gives ?_ (s.seen_purge server.mstime key)
  rw [ttlGenericCommand, Keyspace.ttl, s.seen_key]
  refine gives_lookupKeyRead.bind ?_
  have hdue := s.due_purge server.mstime key
  generalize s.purge server.mstime key = s1 at hdue ⊢
  cases s1.dict key with
  | none => exact .pure _
  | some o =>
    rw [Option.isNone_some, if_neg Bool.false_ne_true, Option.map_some]
    refine gives_getExpire.bind ?_
    cases ht : s1.expires key with
    | none => exact .pure _
    | some t =>
      refine .assume fun db h => ?_
      obtain ⟨hpos, hmax⟩ := (h.sound key).time t ht
      have hle := Store.le_of_not_due hdue ht
      have hwrap : wrap64 (t - server.mstime) = t - server.mstime := by
        refine wrap64_eq ⟨?_, ?_⟩
        · rw [LLONG_MIN]
          omega
        · omega
      have hne : t ≠ -1 := by omega
      have hrest : 0 ≤ t - server.mstime := by omega
      have hne' : t - server.mstime ≠ -1 := by omega
      simp only [Option.getD_some, if_neg hne, hwrap, Int.max_eq_left hrest, if_neg hne']
      exact .pure _

theorem serves_persist : Serves server n s (persistCommand server key)
    ((s.seen server.mstime).persist key) := by
  rw [persistCommand, Keyspace.persist, s.seen_key]
  have hlookup : Prog.Gives _ (lookupKeyWrite server key) _ (Holds server.hash n _) := gives_lookupKeyWrite (s := s)
  have hseen := s.seen_purge server.mstime key
  generalize s.purge server.mstime key = s1 at hlookup hseen ⊢
  cases ho : s1.dict key with
  | none =>
    rw [ho] at hlookup
    exact .of_gives (hlookup.bind (.pure _)) hseen
  | some o =>
    rw [ho] at hlookup
    have hkey : s1.dict key ≠ none := ho ▸ Option.some_ne_none o
    have hremove : Prog.Gives (Holds server.hash n s1) (removeExpire server key) _ (Holds server.hash n _) :=
      gives_removeExpire hkey
    rw [Option.map_some]
    cases ht : s1.expires key with
    | none =>
      rw [ht] at hremove
      refine .of_gives (hlookup.bind (hremove.bind (.pure _))) ?_
      rw [← ht, Store.put_self, hseen]
    | some t =>
      rw [ht, ho] at hremove
      refine .of_gives (hlookup.bind (hremove.bind (.pure _))) ?_
      rw [Store.seen_put_some _ _ _ _ fun _ hu => absurd hu.symm (Option.some_ne_none _), hseen]

/-! ### Numbers -/

/-- A value is written to where it is. -/
theorem gives_setVal {o val : Robj} (ho : s.dict key = some o) (hval : val.Fits) :
    Prog.Gives (Holds server.hash n s) (onDict fun d => (d.setVal (server.hash key) key val, ())) ()
      (Holds server.hash n (s.put key (some val) (s.expires key))) := by
  refine gives_onDict fun db h => ?_
  have hmem := (h.dict.maps key o).1 ho
  have hd := h.dict.setVal hmem val
  refine ⟨_, rfl, hd, ?_, h.sound.put ?_, ?_⟩
  · rw [Store.put, Function.update_eq_self]
    exact h.expires
  · exact ⟨fun _ => Option.some_ne_none _, fun o ho => Option.some.inj ho ▸ hval, (h.sound key).time⟩
  · refine Nat.le_trans (h.dict.size_mono hd ?_) h.le
    intro key' hkey'
    rw [Function.update_apply] at hkey'
    split at hkey'
    · next heq => exact heq ▸ ho ▸ Option.some_ne_none o
    · exact hkey'

/-- The value is written over, next to whatever time the key has. -/
theorem gives_writeInt (hn : n < 2 ^ 62) {value : Int} (hvalue : LLONG_MIN ≤ value ∧ value ≤ LLONG_MAX) (reply : Reply) :
    Prog.Gives (Holds server.hash n s)
      (match s.dict key with
        | none => do
          dbAdd server key (.int value)
          return reply
        | some (.str _) => do
          dbOverwrite server key (.int value)
          return reply
        | some (.int old) =>
          if !isShared old && !isShared value then do
            onDict fun d => (d.setVal (server.hash key) key (.int value), ())
            return reply
          else do
            dbOverwrite server key (.int value)
            return reply) reply
      (Holds server.hash (n + 1) (s.put key (some (.int value)) (s.expires key))) := by
  have hfits : (Robj.int value).Fits := hvalue
  cases ho : s.dict key with
  | none => exact (gives_dbAdd hn ho hfits).bind (.pure _)
  | some o =>
    have hne : s.dict key ≠ none := ho ▸ Option.some_ne_none o
    have hover : Prog.Gives (Holds server.hash n s)
        (do
          dbOverwrite server key (.int value)
          return reply) reply (Holds server.hash (n + 1) (s.put key (some (.int value)) (s.expires key))) :=
      gives_succ ((gives_dbOverwrite hn hne hfits).bind (.pure _))
    cases o with
    | str _ => exact hover
    | int old =>
      simp only
      split
      · exact gives_succ ((gives_setVal ho hfits).bind (.pure _))
      · exact hover

theorem serves_incrDecr (hs : s.Sound) (hn : n < 2 ^ 62) {incr : Int} (hincr : LLONG_MIN ≤ incr ∧ incr ≤ LLONG_MAX) :
    Serves server n s (incrDecrCommand server key incr) ((s.seen server.mstime).incrBy key incr) := by
  rw [incrDecrCommand, Keyspace.incrBy, s.seen_key]
  have hlookup : Prog.Gives _ (lookupKeyWrite server key) _ (Holds server.hash n _) :=
    gives_lookupKeyWrite (s := s)
  have hseen := s.seen_purge server.mstime key
  have hdue := s.due_purge server.mstime key
  have hsound := hs.purge server.mstime key
  generalize s.purge server.mstime key = s1 at hlookup hseen hdue hsound ⊢
  have hfits : ∀ o, s1.dict key = some o → o.Fits := (hsound key).fits
  have hobj : ((s1.dict key).map fun o => (o.text, s1.expires key)).map (·.1) = (s1.dict key).map Robj.text := by
    cases s1.dict key <;> rfl
  have htime : ((s1.dict key).map fun o => (o.text, s1.expires key)).bind (·.2) = s1.expires key := by
    cases ho : s1.dict key with
    | none =>
      rw [Option.map_none, Option.bind_none]
      exact (not_ne_iff.1 fun ht => (hsound key).sub ht ho).symm
    | some o => rfl
  rw [hobj, htime, ← getLongLongFromObject_eq hfits]
  cases hold : getLongLongFromObject (s1.dict key) with
  | none =>
    refine .of_gives (hlookup.bind ?_) hseen
    rw [hold]
    exact .pure _
  | some old =>
    simp only
    cases hover : overflows old incr with
    | true =>
      rw [if_pos rfl]
      refine .of_gives (hlookup.bind ?_) hseen
      simp only [hold, hover, if_true]
      exact .pure _
    | false =>
      have hvalue := add_fits (getLongLongFromObject_fits hfits hold) hincr hover
      rw [if_neg Bool.false_ne_true]
      have hwrite : Prog.Gives (Holds server.hash n s1) _ (Reply.integer (old + incr))
          (Holds server.hash (n + 1) (s1.put key _ _)) := gives_writeInt hn hvalue _
      refine ⟨s1.put key (some (.int (old + incr))) (s1.expires key), hlookup.bind ?_, ?_⟩
      · simp only [hold, hover]
        exact hwrite
      · rw [Store.seen_put_some, hseen, text_int hvalue]
        exact fun u hu => Store.le_of_not_due hdue hu

/-! ### The database -/

theorem Store.sound_empty : (⟨fun _ => none, fun _ => none⟩ : Store).Sound :=
  fun _ => ⟨fun hne => absurd rfl hne, fun _ hn => absurd hn.symm (Option.some_ne_none _),
    fun _ hn => absurd hn.symm (Option.some_ne_none _)⟩

theorem serves_flushdb : Serves server n s flushdbCommand (fun _ => none, .ok) := by
  refine ⟨⟨fun _ => none, fun _ => none⟩, ?_, rfl⟩
  rw [flushdbCommand]
  exact Prog.Gives.bind (Prog.Gives.set ⟨Represents.create, Represents.create, Store.sound_empty, Nat.zero_le _⟩)
    (.pure _)

/-- The reply is the number of keys that are stored, those included whose time has come. -/
theorem gives_dbsize : Prog.Gives (Holds server.hash n s) dbsizeCommand
    (.integer (Set.ncard {key | s.dict key ≠ none})) (Holds server.hash n s) := by
  rw [dbsizeCommand]
  refine .get_bind fun db h => ?_
  rw [h.dict.size]
  exact (Prog.Gives.pure _).post fun _ h => h.1

theorem le_dbsize {db : RedisDb} (h : Holds server.hash n s db) (now : Int) {keys : List Sds}
    (hnodup : keys.Nodup) (hkeys : ∀ key ∈ keys, (s.seen now key).isSome = true) :
    keys.length ≤ Set.ncard {key | s.dict key ≠ none} := by
  have hsub : keys ⊆ db.dict.entries.map (·.1) := by
    intro key hkey
    refine h.dict.mem_keys fun hnone => ?_
    have hsome := hkeys key hkey
    rw [Store.seen, hnone] at hsome
    exact Bool.noConfusion hsome
  have hle := (List.subperm_of_subset hnodup hsub).length_le
  rwa [List.length_map, ← h.dict.wf.size_eq, h.dict.size] at hle

/-! ### SCAN -/

/-- The keys a loop over a dictionary has come across: keys of the dictionary, each once, and all of
them behind the cursor. -/
structure Behind {ν : Type} (hash : Sds → BitVec 64) (d : Dict Sds ν) (cursor : BitVec 64) (keys : List Sds) :
    Prop where
  nodup : keys.Nodup
  sub : ∀ key ∈ keys, key ∈ d.entries.map (·.1)
  behind : keys = [] ∨ ∃ k, d.scanSize = 2 ^ k ∧ Cursor.AtStart k cursor ∧
    ∀ key ∈ keys, Cursor.rank (hash key) < Cursor.rank cursor

theorem Behind.call {ν : Type} {hash : Sds → BitVec 64} {d : Dict Sds ν} (hwf : d.Wf hash)
    {cursor : BitVec 64} {keys : List Sds} (h : Behind hash d cursor keys) :
    let out := keys ++ (dictScan d cursor).1.map (·.1)
    out.Nodup ∧ (∀ key ∈ out, key ∈ d.entries.map (·.1)) ∧
      ((dictScan d cursor).2 ≠ 0 → Behind hash d (dictScan d cursor).2 out) := by
  simp only
  by_cases hzero : dictSize d = 0
  · rw [dictScan, if_pos hzero, List.map_nil, List.append_nil]
    exact ⟨h.nodup, h.sub, fun hne => absurd rfl hne⟩
  obtain ⟨k, hk, hsize, hnext, hat, -, hnodup⟩ := hwf.dictScan hzero cursor
  have hk64 : k ≤ 64 := by omega
  have hsub : ∀ key ∈ keys ++ (dictScan d cursor).1.map (·.1), key ∈ d.entries.map (·.1) := by
    intro key hkey
    rcases List.mem_append.1 hkey with hkey | hkey
    · exact h.sub key hkey
    · obtain ⟨e, he, rfl⟩ := List.mem_map.1 hkey
      exact List.mem_map_of_mem (hat e he).1
  have hnodup : (keys ++ (dictScan d cursor).1.map (·.1)).Nodup := by
    refine List.nodup_append.2 ⟨h.nodup, hnodup, ?_⟩
    intro key hkey key' hkey' heq
    obtain ⟨e, he, rfl⟩ := List.mem_map.1 hkey'
    rcases h.behind with rfl | ⟨j, hj, hstart, hlt⟩
    · exact absurd hkey List.not_mem_nil
    · obtain rfl : j = k := Nat.pow_right_injective (Nat.le_refl 2) (hj.symm.trans hsize)
      have hle := hstart.rank_le hk64 (hat e he).2
      have hlt := hlt key hkey
      rw [heq] at hlt
      exact absurd hle (Nat.not_le.2 hlt)
  refine ⟨hnodup, hsub, fun hne => ⟨hnodup, hsub, .inr ⟨k, hsize, ?_, ?_⟩⟩⟩
  · rw [hnext]
    exact Cursor.atStart_next _ hk64
  · intro key hkey
    rw [hnext] at hne ⊢
    rcases List.mem_append.1 hkey with hkey | hkey
    · rcases h.behind with rfl | ⟨j, hj, hstart, hlt⟩
      · exact absurd hkey List.not_mem_nil
      · exact (hlt key hkey).trans (Cursor.rank_lt_rank_next hk64 rfl hne)
    · obtain ⟨e, he, rfl⟩ := List.mem_map.1 hkey
      exact Cursor.rank_lt_rank_next hk64 (hat e he).2 hne

theorem Behind.scanLoop {ν : Type} {hash : Sds → BitVec 64} {d : Dict Sds ν} (hwf : d.Wf hash) (count : Int)
    (turns : Nat) : ∀ {cursor : BitVec 64} {keys : List Sds}, Behind hash d cursor keys →
      (scanLoop d count turns cursor keys).2.Nodup ∧
        ∀ key ∈ (scanLoop d count turns cursor keys).2, key ∈ d.entries.map (·.1) := by
  induction turns with
  | zero =>
    intro cursor keys h
    obtain ⟨hnodup, hsub, -⟩ := h.call hwf
    exact ⟨hnodup, hsub⟩
  | succ turns ih =>
    intro cursor keys h
    obtain ⟨hnodup, hsub, hnext⟩ := h.call hwf
    simp only [Redis.scanLoop]
    split
    · next hmore => exact ih (hnext hmore.1)
    · exact ⟨hnodup, hsub⟩

/-- The matcher says which keys pass. -/
theorem decides_passes {p key : Sds} (hp : key = [] → readable p = true) :
    Decides (stringmatchlen p key false) (Keyspace.Passes p key) := by
  rw [Keyspace.Passes]
  split
  · next hkey =>
    subst hkey
    exact ⟨Option.isSome_iff_ne_none.1 (hp rfl), Iff.rfl⟩
  · next hkey => exact decides_stringmatchlen p hkey

/-- What the matcher says of a key. -/
theorem matched {pat : Option Sds} {key : Sds} (hpat : key = [] → pat.all readable = true) :
    pat.map (stringmatchlen · key false) = some (some false) ∧
        ¬ (∀ p, pat = some p → Keyspace.Passes p key) ∨
      (pat.map (stringmatchlen · key false) ≠ some none ∧
        pat.map (stringmatchlen · key false) ≠ some (some false)) ∧
      ∀ p, pat = some p → Keyspace.Passes p key := by
  cases pat with
  | none => exact .inr ⟨⟨by simp, by simp⟩, fun p hp => absurd hp.symm (Option.some_ne_none p)⟩
  | some p =>
    obtain ⟨hdef, hiff⟩ := decides_passes hpat
    obtain ⟨b, hb⟩ := Option.ne_none_iff_exists'.1 hdef
    rw [hb, Option.some.injEq] at hiff
    rw [Option.map_some, hb]
    cases b with
    | false => exact .inl ⟨rfl, fun h => Bool.noConfusion (hiff.2 (h p rfl))⟩
    | true =>
      refine .inr ⟨⟨by simp, by simp⟩, ?_⟩
      intro p' hp'
      obtain rfl := Option.some.inj hp'
      exact hiff.1 rfl

theorem Store.dict_purge_of_ne (s : Store) (now : Int) {key key' : Sds} (hne : key' ≠ key) :
    (s.purge now key).dict key' = s.dict key' := by
  rw [Store.purge]
  split
  · rw [Store.erase, Store.dict_put, if_neg hne]
  · rfl

theorem Store.dict_purge_of_none (s : Store) (now : Int) (key : Sds) {key' : Sds} (hnone : s.dict key' = none) :
    (s.purge now key).dict key' = none := by
  rw [Store.purge]
  split
  · rw [Store.erase, Store.dict_put, hnone, ite_self]
  · exact hnone

/-- The filter leaves the keys that match and stay. -/
theorem gives_scanFilter (pat : Option Sds) (keys : List Sds) :
    ∀ {s : Store}, s.Sound → keys.Nodup → (∀ key ∈ keys, s.dict key ≠ none) →
      (s.dict [] ≠ none → pat.all readable = true) →
      ∃ out s', Prog.Gives (Holds server.hash n s) (scanFilter server pat keys) out (Holds server.hash n s') ∧
        s'.seen server.mstime = s.seen server.mstime ∧
        ∀ key, key ∈ out ↔ key ∈ keys ∧ (s.seen server.mstime).Scans pat key := by
  induction keys with
  | nil => exact fun _ _ _ _ => ⟨[], _, .pure _, rfl, fun key => by simp⟩
  | cons key keys ih =>
    intro s hsound hnodup hkeys hpat
    rw [List.nodup_cons] at hnodup
    rw [List.forall_mem_cons] at hkeys
    have hkeys' : ∀ key' ∈ keys, (s.purge server.mstime key).dict key' ≠ none := by
      intro key' hkey'
      rw [s.dict_purge_of_ne server.mstime fun heq : key' = key => hnodup.1 (heq ▸ hkey')]
      exact hkeys.2 key' hkey'
    -- A key that is left out is not one of the keys asked for.
    have hskip : ∀ {out : List Sds}, ¬ (s.seen server.mstime).Scans pat key →
        (∀ key', key' ∈ out ↔ key' ∈ keys ∧ (s.seen server.mstime).Scans pat key') →
        ∀ key', key' ∈ out ↔ key' ∈ key :: keys ∧ (s.seen server.mstime).Scans pat key' := by
      intro out hnot hout key'
      rw [hout, List.mem_cons]
      refine and_congr_left fun hscans => ?_
      exact (or_iff_right fun heq : key' = key => hnot (heq ▸ hscans)).symm
    rcases matched fun heq => hpat (heq ▸ hkeys.1) with ⟨hno, hnot⟩ | ⟨⟨hdef, hyes⟩, hmatch⟩
    · obtain ⟨out, s', hrest, hs', hout⟩ := ih hsound hnodup.2 hkeys.2 hpat
      refine ⟨out, s', ?_, hs', hskip (fun hscans => hnot hscans.2) hout⟩
      rw [scanFilter, hno]
      exact hrest
    · obtain ⟨out, s', hrest, hs', hout⟩ := ih (hsound.purge server.mstime key) hnodup.2 hkeys'
        fun hne => hpat fun hnone => hne (s.dict_purge_of_none server.mstime key hnone)
      rw [Store.seen_purge] at hs' hout
      refine ⟨if s.due server.mstime key then out else key :: out, s', ?_, hs', ?_⟩
      · have hgo : scanFilter server pat (key :: keys) = (do
            let expired ← expireIfNeeded server key
            let rest ← scanFilter server pat keys
            return (if expired then rest else key :: rest)) := by
          rw [scanFilter]
          split
          · next h => exact absurd h hdef
          · next h => exact absurd h hyes
          · rfl
        rw [hgo]
        exact gives_expireIfNeeded.bind (hrest.bind (.pure _))
      · split
        · next hdue =>
          refine hskip (fun hscans => ?_) hout
          rw [Keyspace.Scans, Store.seen_eq_none_of_due hdue] at hscans
          exact Bool.noConfusion hscans.1
        · next hdue =>
          have hscans : (s.seen server.mstime).Scans pat key := by
            refine ⟨?_, hmatch⟩
            rw [Store.seen_of_not_due (by simpa using hdue), Option.isSome_map]
            exact Option.isSome_iff_ne_none.2 hkeys.1
          intro key'
          rw [List.mem_cons, List.mem_cons, hout, or_and_right]
          refine or_congr_left ⟨fun heq => ⟨heq, heq ▸ hscans⟩, fun hx => hx.1⟩

/-- What the loop of SCAN over the dictionary ends with. -/
def ScanOptions.loop (opts : ScanOptions) (db : RedisDb) (cursor : BitVec 64) : BitVec 64 × List Sds :=
  scanLoop db.dict opts.count (BitVec.ofInt 64 (opts.count * 10)).toNat cursor []

/-- SCAN returns the keys its loop has come across that match and stay. -/
theorem gives_scanGenericCommand {db : RedisDb} (h : Holds server.hash n s db) {args : List Sds}
    {opts : ScanOptions} (hargs : scanOptions args {} = .ok opts)
    (hpat : s.dict [] ≠ none → opts.pat.all readable = true) (v : BitVec 64) :
    ∃ out s' db', Prog.exec (scanGenericCommand server v args) db =
        (.ok (.scan (ll2string (List.replicate 64 NUL) (opts.loop db v).1.toInt) out), db') ∧
      Holds server.hash n s' db' ∧ s'.seen server.mstime = s.seen server.mstime ∧
      ∀ key, key ∈ out ↔ key ∈ (opts.loop db v).2 ∧ (s.seen server.mstime).Scans opts.pat key := by
  have hstart : Behind server.hash db.dict v [] :=
    ⟨List.nodup_nil, fun _ hkey => absurd hkey List.not_mem_nil, .inl rfl⟩
  obtain ⟨hnodup, hsub⟩ := hstart.scanLoop h.dict.wf opts.count (BitVec.ofInt 64 (opts.count * 10)).toNat
  have hkeys : ∀ key ∈ (opts.loop db v).2, s.dict key ≠ none := by
    intro key hkey
    obtain ⟨e, he, rfl⟩ := List.mem_map.1 (hsub key hkey)
    rw [(h.dict.maps e.1 e.2).2 he]
    exact Option.some_ne_none _
  obtain ⟨out, s', hfilter, hs', hout⟩ := gives_scanFilter opts.pat _ h.sound hnodup hkeys hpat
  obtain ⟨db', hexec, hdb'⟩ := hfilter db h
  refine ⟨out, s', db', ?_, hdb', hs', hout⟩
  simp only [scanGenericCommand, hargs, Prog.exec_bind, Prog.exec_get, hexec, Prog.exec_pure, ScanOptions.loop]

theorem gives_scanCommand {db : RedisDb} (h : Holds server.hash n s db) (cursor : Sds) {args : List Sds}
    (hpat : s.dict [] ≠ none → (Command.scan cursor args).pat.all readable = true) :
    ∃ reply s' db', Prog.exec (scanCommand server cursor args) db = (.ok reply, db') ∧
      Holds server.hash n s' db' ∧ s'.seen server.mstime = s.seen server.mstime ∧
      (s.seen server.mstime).Answers server.mstime (.scan cursor args) reply := by
  simp only [scanCommand, Keyspace.Answers]
  cases parseScanCursor cursor with
  | none => exact ⟨_, s, db, rfl, h, rfl, rfl⟩
  | some v =>
    cases hargs : scanOptions args {} with
    | error e =>
      refine ⟨e, s, db, ?_, h, rfl, rfl⟩
      simp only [scanGenericCommand, hargs, Prog.exec_pure]
    | ok opts =>
      rw [Command.pat, hargs] at hpat
      obtain ⟨out, s', db', hexec, hdb', hs', hout⟩ := gives_scanGenericCommand h hargs hpat v
      exact ⟨_, s', db', hexec, hdb', hs', _, out, rfl, fun key hkey => ((hout key).1 hkey).2⟩

/-! ### Any command -/

theorem serves_set (hn : n + 1 < 2 ^ 62) (hnow : 0 ≤ server.mstime) {val : Sds} {args : List Sds}
    (hfits : (Command.set key val args).fits server.mstime = true) :
    Serves server n s (setCommand server key val args)
      ((s.seen server.mstime).set server.mstime key val args) := by
  rw [Command.fits] at hfits
  rw [setCommand, Keyspace.set]
  cases hargs : setOptions args {} with
  | none => exact .pure _
  | some flags =>
    rw [hargs] at hfits
    exact serves_setGeneric hn hnow val _ _ _ _ _ hfits _ _

/-- DBSIZE and SCAN, which look at what is stored. -/
def Command.looks : Command → Bool
  | .dbsize | .scan _ _ => true
  | _ => false

/-- A command that does not look has the effect and the reply the map prescribes. -/
theorem serves_step (hs : s.Sound) (hn : n + 1 < 2 ^ 62) (hnow : 0 ≤ server.mstime) {c : Command}
    (hfits : c.fits server.mstime = true) (hlooks : c.looks = false) :
    Serves server n s (call server c) ((s.seen server.mstime).step server.mstime c) := by
  have hn' : n < 2 ^ 62 := Nat.lt_of_succ_lt hn
  cases c with
  | set key val args => exact serves_set hn hnow hfits
  | setnx key val =>
    exact serves_setGeneric hn hnow val "setnx" _ _ none .seconds rfl _ _
  | setex key ex val | psetex key ex val =>
    exact serves_setGeneric hn hnow val _ _ _ _ _ hfits _ _
  | get key => exact serves_get
  | getset key val => exact serves_getset hn val
  | del keys =>
    obtain ⟨s', hgives, hs'⟩ := gives_delLoop keys s 0
    exact .of_gives hgives hs'
  | «exists» keys => exact serves_exists keys
  | expire key time | expireat key time | pexpire key time | pexpireat key time =>
    exact serves_expireGeneric hn hnow _ _ _ hfits
  | ttl key | pttl key => exact serves_ttl hnow _
  | persist key => exact serves_persist
  | incr key | decr key => exact serves_incrDecr hs hn' (by decide)
  | incrby key param =>
    simp only [call, incrbyCommand, Keyspace.step]
    cases hparam : string2ll param with
    | none => exact .pure _
    | some incr => exact serves_incrDecr hs hn' (string2ll_eq_some.1 hparam).1
  | decrby key param =>
    simp only [call, decrbyCommand, Keyspace.step]
    cases hparam : string2ll param with
    | none => exact .pure _
    | some incr => exact serves_incrDecr hs hn' (wrap64_fits _)
  | flushdb => exact serves_flushdb
  | dbsize | scan _ _ => exact Bool.noConfusion hlooks

/-- One command does to the map what it means, and answers what it means. -/
theorem serves_call {db : RedisDb} (h : Holds server.hash n s db) (hn : n + 1 < 2 ^ 62)
    (hnow : 0 ≤ server.mstime) {c : Command} (hfits : c.fits server.mstime = true)
    (hpat : s.dict [] ≠ none → c.pat.all readable = true) :
    ∃ reply s' db', Prog.exec (call server c) db = (.ok reply, db') ∧ Holds server.hash (n + 1) s' db' ∧
      s'.seen server.mstime = ((s.seen server.mstime).step server.mstime c).1 ∧
      (s.seen server.mstime).Answers server.mstime c reply := by
  cases hlooks : c.looks with
  | false =>
    obtain ⟨s', hgives, hs'⟩ := serves_step h.sound hn hnow hfits hlooks
    obtain ⟨db', hexec, hdb'⟩ := hgives db h
    refine ⟨_, s', db', hexec, hdb', hs', ?_⟩
    cases c with
    | dbsize | scan _ _ => exact Bool.noConfusion hlooks
    | _ => exact rfl
  | true =>
    cases c with
    | dbsize =>
      obtain ⟨db', hexec, hdb'⟩ := gives_dbsize db h
      exact ⟨_, s, db', hexec, hdb'.mono (Nat.le_succ n), rfl, _, rfl, fun keys hnodup hkeys =>
        le_dbsize h server.mstime hnodup hkeys⟩
    | scan cursor args =>
      obtain ⟨reply, s', db', hexec, hdb', hs', hreply⟩ := gives_scanCommand h cursor hpat
      exact ⟨reply, s', db', hexec, hdb'.mono (Nat.le_succ n), hs', hreply⟩
    | _ => exact Bool.noConfusion hlooks

/-! ## Jobs -/

theorem tryResize_same {ν : Type} {d : Dict Sds ν} (h : d.Wf server.hash) :
    Dict.Same server.hash d (tryResize server d) := by
  rw [tryResize]
  split
  · exact h.getD_dictResize server.canResize
  · exact h.same

theorem dictRehashMilliseconds_same {ν : Type} (turns : Nat) : ∀ {d : Dict Sds ν}, d.Wf server.hash →
    Dict.Same server.hash d (dictRehashMilliseconds server turns d) := by
  induction turns with
  | zero => exact fun h => h.same
  | succ turns ih =>
    intro d h
    have hsame := h.dictRehash 100
    rw [dictRehashMilliseconds]
    generalize dictRehash server.hash d 100 = r at hsame
    obtain ⟨d', more⟩ := r
    cases more with
    | true => exact hsame.trans (ih hsame.wf)
    | false => exact hsame

theorem Holds.of_same {hash : Sds → BitVec 64} {db : RedisDb} (h : Holds hash n s db)
    {d : Dict Sds Robj} {e : Dict Sds Int} (hd : Dict.Same hash db.dict d) (he : Dict.Same hash db.expires e) :
    Holds hash n s ⟨d, e⟩ := by
  have hd' := h.dict.same hd
  exact ⟨hd', h.expires.same he, h.sound, Nat.le_trans (h.dict.size_mono hd' fun _ hkey => hkey) h.le⟩

theorem incrementallyRehash_same {db : RedisDb} (h : Holds server.hash n s db) (turns : Nat) :
    ∃ db', Prog.exec (incrementallyRehash server turns) db = (.ok (), db') ∧ Holds server.hash n s db' := by
  simp only [incrementallyRehash, Prog.exec_bind, Prog.exec_get]
  split
  · exact ⟨_, rfl, h.of_same (dictRehashMilliseconds_same turns h.dict.wf) h.expires.wf.same⟩
  · exact ⟨_, rfl, h.of_same h.dict.wf.same (dictRehashMilliseconds_same turns h.expires.wf)⟩

/-- The sample deletes a key only if its time has come. -/
theorem tryExpireRandom_same {db : RedisDb} (h : Holds server.hash n s db) (i : Nat) :
    ∃ s' db', Prog.exec (tryExpireRandom server i) db = (.ok (), db') ∧ Holds server.hash n s' db' ∧
      s'.seen server.mstime = s.seen server.mstime := by
  have hstep : Dict.Same server.hash db.expires
      (if dictSize db.expires = 0 then db.expires else db.expires.stepIfRehashing server.hash) := by
    split
    · exact h.expires.wf.same
    · exact h.expires.wf.stepIfRehashing
  generalize hd : (if dictSize db.expires = 0 then db.expires
    else db.expires.stepIfRehashing server.hash) = d at hstep
  have hdb : Holds server.hash n s { db with expires := d } := h.of_same h.dict.wf.same hstep
  have hpick : ∀ de, (d.ht0.table.flatten ++ d.ht1.table.flatten)[i]? = some de → s.expires de.1 = some de.2 :=
    fun de hde => (hdb.expires.maps de.1 de.2).2 (List.mem_of_getElem? hde)
  simp only [tryExpireRandom, onExpires, Prog.exec_bind, Prog.exec_get, Prog.exec_set, Prog.exec_pure, hd]
  cases hde : (d.ht0.table.flatten ++ d.ht1.table.flatten)[i]? with
  | none => exact ⟨s, _, rfl, hdb, rfl⟩
  | some de =>
    obtain ⟨key, t⟩ := de
    simp only
    split
    · next hlt =>
      have hdelete : Prog.Gives (Holds server.hash n s) (dbSyncDelete server key) _ _ := gives_dbSyncDelete
      obtain ⟨db', hexec, hdb'⟩ := hdelete _ hdb
      refine ⟨_, db', ?_, hdb', ?_⟩
      · rw [Prog.exec_bind, hexec]
        rfl
      · have hdue : s.due server.mstime key = true := by
          rw [Store.due, hpick _ hde, Option.any_some]
          exact decide_eq_true hlt
        have hpurge := s.seen_purge server.mstime key
        rwa [Store.purge, if_pos hdue] at hpurge
    · exact ⟨s, _, rfl, hdb, rfl⟩

end

end Redis
