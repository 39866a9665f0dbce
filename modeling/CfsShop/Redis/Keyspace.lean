/-
What the server is for: a map from keys to texts, some of which go when their
time comes.

`Keyspace.step` says what each command means for that map. The server deletes a
key whose time has come only when it runs into it, so what it stores is more
than the map; `Store.seen` is the map that is left of a store at a time.
-/
import CfsShop.Redis.Db

namespace Redis

/-! ## The map -/

/-- The text of a key, and when it goes. -/
abbrev Keyspace := Sds → Option (Sds × Option Int)

/-- Not gone at the time. -/
def stays (now : Int) (e : Sds × Option Int) : Bool := e.2.all (now ≤ ·)

namespace Keyspace

/-- What is left of the map at the time. -/
def left (ks : Keyspace) (now : Int) : Keyspace := fun key => (ks key).filter (stays now)

def store (ks : Keyspace) (key val : Sds) (t : Option Int) : Keyspace := Function.update ks key (some (val, t))

def remove (ks : Keyspace) (key : Sds) : Keyspace := Function.update ks key none

/-! ## Commands -/

section
variable (now : Int) (ks : Keyspace)

def setGeneric (name : String) (nx xx : Bool) (key val : Sds) (ex : Option Sds) (unit : TimeUnit)
    (okReply abortReply : Reply) : Keyspace × Reply :=
  match expireTime name ex unit with
  | .error e => (ks, e)
  | .ok ttl =>
    if nx && (ks key).isSome || xx && (ks key).isNone then (ks, abortReply)
    else (ks.store key val (ttl.map (now + ·)), okReply)

def set (key val : Sds) (args : List Sds) : Keyspace × Reply :=
  match setOptions args {} with
  | none => (ks, syntaxerr)
  | some flags => ks.setGeneric now "set" flags.nx flags.xx key val flags.expire flags.unit .ok .nil

def get (key : Sds) : Reply :=
  match ks key with
  | none => .nil
  | some (val, _) => .bulk val

def del : List Sds → Int → Keyspace → Keyspace × Reply
  | [], numdel, ks => (ks, .integer numdel)
  | key :: keys, numdel, ks => del keys (if (ks key).isSome then numdel + 1 else numdel) (ks.remove key)

def expire (key param : Sds) (basetime : Int) (unit : TimeUnit) : Keyspace × Reply :=
  match string2ll param with
  | none => (ks, notInteger)
  | some n =>
    match ks key with
    | none => (ks, .integer 0)
    | some (val, _) =>
      if unit.toMillis n + basetime ≤ now then (ks.remove key, .integer 1)
      else (ks.store key val (some (unit.toMillis n + basetime)), .integer 1)

def ttl (key : Sds) (outputMs : Bool) : Reply :=
  match ks key with
  | none => .integer (-2)
  | some (_, none) => .integer (-1)
  | some (_, some t) => .integer (if outputMs then t - now else (t - now + 500).tdiv 1000)

def persist (key : Sds) : Keyspace × Reply :=
  match ks key with
  | some (val, some _) => (ks.store key val none, .integer 1)
  | _ => (ks, .integer 0)

/-- The key keeps its time to live. -/
def incrBy (key : Sds) (incr : Int) : Keyspace × Reply :=
  match ((ks key).map (·.1)).elim (some 0) string2ll with
  | none => (ks, notInteger)
  | some old =>
    if overflows old incr then (ks, .error "increment or decrement would overflow")
    else (ks.store key (decimal (old + incr)) ((ks key).bind (·.2)), .integer (old + incr))

/-- DBSIZE and SCAN, which look at what is stored, are not here: `Answers` says what they may
answer. -/
def step : Command → Keyspace × Reply
  | .set key val args => ks.set now key val args
  | .setnx key val => ks.setGeneric now "setnx" true false key val none .seconds (.integer 1) (.integer 0)
  | .setex key ex val => ks.setGeneric now "setex" false false key val (some ex) .seconds .ok .nil
  | .psetex key ex val => ks.setGeneric now "psetex" false false key val (some ex) .milliseconds .ok .nil
  | .get key => (ks, ks.get key)
  | .getset key val => (ks.store key val none, ks.get key)
  | .del keys => del keys 0 ks
  | .exists keys => (ks, .integer (keys.countP fun key => (ks key).isSome))
  | .expire key seconds => ks.expire now key seconds now .seconds
  | .expireat key time => ks.expire now key time 0 .seconds
  | .pexpire key milliseconds => ks.expire now key milliseconds now .milliseconds
  | .pexpireat key time => ks.expire now key time 0 .milliseconds
  | .ttl key => (ks, ks.ttl now key false)
  | .pttl key => (ks, ks.ttl now key true)
  | .persist key => ks.persist key
  | .incr key => ks.incrBy key 1
  | .decr key => ks.incrBy key (-1)
  | .incrby key param =>
    match string2ll param with
    | none => (ks, notInteger)
    | some incr => ks.incrBy key incr
  | .decrby key param =>
    match string2ll param with
    | none => (ks, notInteger)
    | some incr => ks.incrBy key (wrap64 (-incr))
  | .dbsize => (ks, .nil)
  | .flushdb => (fun _ => none, .ok)
  | .scan _ _ => (ks, .nil)

/-- The key goes by the pattern. The empty key goes by what the server makes of it. -/
def Passes (p key : Sds) : Prop :=
  if key = [] then stringmatchlen p [] false = some true else Glob false p key

theorem passes_star (key : Sds) : Passes ['*'] key := by
  rw [Passes]
  split
  · rfl
  · exact glob_star.2 ⟨[], List.nil_suffix, .done⟩

/-- The key is one that SCAN may return. -/
def Scans (pat : Option Sds) (key : Sds) : Prop :=
  (ks key).isSome = true ∧ ∀ p, pat = some p → Passes p key

/-- The replies to a command. DBSIZE may count keys that are gone already, and SCAN returns some of
the keys. -/
def Answers (c : Command) (reply : Reply) : Prop :=
  match c with
  | .dbsize => ∃ n : Nat, reply = .integer n ∧
      ∀ keys : List Sds, keys.Nodup → (∀ key ∈ keys, (ks key).isSome = true) → keys.length ≤ n
  | .scan cursor args =>
    match parseScanCursor cursor, scanOptions args {} with
    | none, _ => reply = .error "invalid cursor"
    | some _, .error e => reply = e
    | some _, .ok opts => ∃ next keys, reply = .scan next keys ∧ ∀ key ∈ keys, ks.Scans opts.pat key
  | c => reply = (ks.step now c).2

end

end Keyspace

/-! ## Which keys a command is about -/

/-- The command may make the key. -/
def Command.stores (key : Sds) : Command → Bool
  | .set k _ _ | .setnx k _ | .setex k _ _ | .psetex k _ _ | .getset k _ => k = key
  | .incr k | .decr k | .incrby k _ | .decrby k _ => k = key
  | _ => false

/-- The command may change what the key has. -/
def Command.touches (key : Sds) : Command → Bool
  | .del keys => key ∈ keys
  | .expire k _ | .expireat k _ | .pexpire k _ | .pexpireat k _ | .persist k => k = key
  | .flushdb => true
  | c => c.stores key

namespace Keyspace

section
variable {now : Int} {ks ks' : Keyspace} {key k : Sds}

theorem left_congr (h : ks key = ks' key) : ks.left now key = ks'.left now key := congrArg _ h

theorem store_congr (h : ks key = ks' key) {val : Sds} {t : Option Int} :
    ks.store k val t key = ks'.store k val t key := by
  rw [store, store, Function.update_apply, Function.update_apply, h]

theorem remove_congr (h : ks key = ks' key) : ks.remove k key = ks'.remove k key := by
  rw [remove, remove, Function.update_apply, Function.update_apply, h]

theorem store_of_ne (h : ¬ k = key) {val : Sds} {t : Option Int} : ks.store k val t key = ks key :=
  Function.update_of_ne (Ne.symm h) _ _

theorem remove_of_ne (h : ¬ k = key) : ks.remove k key = ks key := Function.update_of_ne (Ne.symm h) _ _

theorem setGeneric_of_ne (h : ¬ k = key) {name : String} {nx xx : Bool} {val : Sds} {ex : Option Sds}
    {unit : TimeUnit} {okReply abortReply : Reply} :
    (ks.setGeneric now name nx xx k val ex unit okReply abortReply).1 key = ks key := by
  rw [setGeneric]
  split
  · rfl
  · split
    · rfl
    · exact store_of_ne h

theorem incrBy_of_ne (h : ¬ k = key) {incr : Int} : (ks.incrBy k incr).1 key = ks key := by
  rw [incrBy]
  split
  · rfl
  · split
    · rfl
    · exact store_of_ne h

theorem expire_of_ne (h : ¬ k = key) {param : Sds} {basetime : Int} {unit : TimeUnit} :
    (ks.expire now k param basetime unit).1 key = ks key := by
  rw [expire]
  split
  · rfl
  · split
    · rfl
    · split
      · exact remove_of_ne h
      · exact store_of_ne h

theorem persist_of_ne (h : ¬ k = key) : (ks.persist k).1 key = ks key := by
  rw [persist]
  split
  · exact store_of_ne h
  · rfl

theorem del_of_not_mem (keys : List Sds) : ∀ {n : Int} {ks : Keyspace}, key ∉ keys → (del keys n ks).1 key = ks key := by
  induction keys with
  | nil => exact fun _ => rfl
  | cons k keys ih =>
    intro n ks h
    rw [List.mem_cons, not_or] at h
    rw [del, ih h.2]
    exact remove_of_ne fun heq => h.1 heq.symm

theorem del_of_mem (keys : List Sds) : ∀ {n : Int} {ks : Keyspace}, key ∈ keys → (del keys n ks).1 key = none := by
  induction keys with
  | nil => exact fun h => absurd h List.not_mem_nil
  | cons k keys ih =>
    intro n ks h
    rw [del]
    by_cases hmem : key ∈ keys
    · exact ih hmem
    · obtain rfl : key = k := (List.mem_cons.1 h).resolve_right hmem
      rw [del_of_not_mem keys hmem]
      exact Function.update_self ..

/-- What a command does not touch stays as it is. -/
theorem step_of_not_touches {c : Command} (h : c.touches key = false) : (ks.step now c).1 key = ks key := by
  cases c with
  | set k val args =>
    rw [step, set]
    split
    · rfl
    · exact setGeneric_of_ne (of_decide_eq_false h)
  | setnx k val | setex k ex val | psetex k ex val => exact setGeneric_of_ne (of_decide_eq_false h)
  | getset k val => exact store_of_ne (of_decide_eq_false h)
  | del keys => exact del_of_not_mem keys (of_decide_eq_false h)
  | expire k time | expireat k time | pexpire k time | pexpireat k time => exact expire_of_ne (of_decide_eq_false h)
  | persist k => exact persist_of_ne (of_decide_eq_false h)
  | incr k | decr k => exact incrBy_of_ne (of_decide_eq_false h)
  | incrby k param | decrby k param =>
    rw [step]
    split
    · rfl
    · exact incrBy_of_ne (of_decide_eq_false h)
  | flushdb => exact Bool.noConfusion h
  | _ => rfl

/-- What a command does not store is not there afterwards if it was not there before. -/
theorem step_of_not_stores {c : Command} (h : c.stores key = false) (hnone : ks key = none) :
    (ks.step now c).1 key = none := by
  by_cases htouch : c.touches key = true
  · cases c with
    | del keys => exact del_of_mem keys (of_decide_eq_true htouch)
    | expire k time | expireat k time | pexpire k time | pexpireat k time =>
      obtain rfl : k = key := of_decide_eq_true htouch
      rw [step, expire, hnone]
      split
      · exact hnone
      · exact hnone
    | persist k =>
      obtain rfl : k = key := of_decide_eq_true htouch
      rw [step, persist, hnone]
      exact hnone
    | flushdb => rfl
    | _ => exact absurd (h ▸ htouch) Bool.false_ne_true
  · rw [step_of_not_touches (by simpa using htouch), hnone]

theorem setGeneric_congr (h : ks k = ks' k) {name : String} {nx xx : Bool} {val : Sds} {ex : Option Sds}
    {unit : TimeUnit} {okReply abortReply : Reply} :
    (ks.setGeneric now name nx xx k val ex unit okReply abortReply).1 k =
      (ks'.setGeneric now name nx xx k val ex unit okReply abortReply).1 k := by
  rw [setGeneric, setGeneric, h]
  split
  · exact h
  · split
    · exact h
    · exact store_congr h

theorem incrBy_congr (h : ks k = ks' k) {incr : Int} : (ks.incrBy k incr).1 k = (ks'.incrBy k incr).1 k := by
  rw [incrBy, incrBy, h]
  split
  · exact h
  · split
    · exact h
    · exact store_congr h

theorem expire_congr (h : ks k = ks' k) {param : Sds} {basetime : Int} {unit : TimeUnit} :
    (ks.expire now k param basetime unit).1 k = (ks'.expire now k param basetime unit).1 k := by
  rw [expire, expire, h]
  split
  · exact h
  · split
    · exact h
    · split
      · exact remove_congr h
      · exact store_congr h

theorem persist_congr (h : ks k = ks' k) : (ks.persist k).1 k = (ks'.persist k).1 k := by
  rw [persist, persist, h]
  split
  · exact store_congr h
  · exact h

/-- What a key has after a command depends on what it had before. -/
theorem step_congr {c : Command} (h : ks key = ks' key) : (ks.step now c).1 key = (ks'.step now c).1 key := by
  by_cases htouch : c.touches key = true
  · cases c with
    | set k val args =>
      obtain rfl : k = key := of_decide_eq_true htouch
      rw [step, step, set, set]
      split
      · exact h
      · exact setGeneric_congr h
    | setnx k val | setex k ex val | psetex k ex val =>
      obtain rfl : k = key := of_decide_eq_true htouch
      exact setGeneric_congr h
    | getset k val =>
      obtain rfl : k = key := of_decide_eq_true htouch
      exact store_congr h
    | del keys =>
      have hmem := of_decide_eq_true htouch
      exact (del_of_mem keys hmem).trans (del_of_mem keys hmem).symm
    | expire k time | expireat k time | pexpire k time | pexpireat k time =>
      obtain rfl : k = key := of_decide_eq_true htouch
      exact expire_congr h
    | persist k =>
      obtain rfl : k = key := of_decide_eq_true htouch
      exact persist_congr h
    | incr k | decr k =>
      obtain rfl : k = key := of_decide_eq_true htouch
      exact incrBy_congr h
    | incrby k param | decrby k param =>
      obtain rfl : k = key := of_decide_eq_true htouch
      rw [step, step]
      split
      · exact h
      · exact incrBy_congr h
    | flushdb => rfl
    | _ => exact Bool.noConfusion htouch
  · have hfalse : c.touches key = false := by simpa using htouch
    rw [step_of_not_touches hfalse, step_of_not_touches hfalse, h]

end

end Keyspace

/-! ## What commands are asked to do -/

/-- The time to live does not take the clock out of its range. -/
def ttlFits (now : Int) (name : String) (ex : Option Sds) (unit : TimeUnit) : Bool :=
  match expireTime name ex unit with
  | .ok (some ttl) => 0 ≤ ttl && now + ttl ≤ LLONG_MAX
  | _ => true

def timeFits (param : Sds) (basetime : Int) (unit : TimeUnit) : Bool :=
  match string2ll param with
  | some n => LLONG_MIN ≤ unit.toMillis n + basetime && unit.toMillis n + basetime ≤ LLONG_MAX
  | none => true

/-- Times stay in the range of the clock. -/
def Command.fits (now : Int) : Command → Bool
  | .set _ _ args =>
    match setOptions args {} with
    | some flags => ttlFits now "set" flags.expire flags.unit
    | none => true
  | .setex _ ex _ => ttlFits now "setex" (some ex) .seconds
  | .psetex _ ex _ => ttlFits now "psetex" (some ex) .milliseconds
  | .expire _ seconds => timeFits seconds now .seconds
  | .expireat _ time => timeFits time 0 .seconds
  | .pexpire _ milliseconds => timeFits milliseconds now .milliseconds
  | .pexpireat _ time => timeFits time 0 .milliseconds
  | _ => true

/-- The pattern of a SCAN. -/
def Command.pat : Command → Option Sds
  | .scan _ args =>
    match scanOptions args {} with
    | .ok opts => opts.pat
    | .error _ => none
  | _ => none

/-- The pattern can be held against the empty key. -/
def readable (p : Sds) : Bool := (stringmatchlen p [] false).isSome

end Redis
