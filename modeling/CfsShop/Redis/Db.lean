/-
The keyspace of the bundled Redis (db.c, expire.c, t_string.c): one database,
of a master that is not loading, without a memory limit and without lazy
freeing. The keys with a time to live are in a second dictionary, and a key
whose time has come stays in both until somebody comes across it.

Values are strings, the only type that is stored here. The clock is assumed to
stand still while a command is served: the source reads `mstime()` anew for
each key whose time it looks at, which is the same as long as a command takes
less than a millisecond. A failed assertion ends the server; so does, here, a
read behind the terminator of the empty key, where the source goes on with
whatever is there.
-/
import CfsShop.Lib.Prog
import CfsShop.Redis.Dict
import CfsShop.Redis.DictScan
import CfsShop.Redis.Glob
import CfsShop.Redis.Util

namespace Redis

/-! ## Objects -/

abbrev Sds := List Char

/-- A string as it is, or the number it is the text of. -/
inductive Robj
  | str (s : Sds)
  | int (value : Int)
  deriving Repr, DecidableEq

/-- `getDecodedObject`. -/
def Robj.text : Robj → Sds
  | .str s => s
  | .int value => ll2string (List.replicate 32 NUL) value

def tryObjectEncoding (s : Sds) : Robj :=
  if s.length ≤ 20 then
    match string2ll s with
    | some value => .int value
    | none => .str s
  else .str s

/-- A missing object counts as 0. -/
def getLongLongFromObject : Option Robj → Option Int
  | none => some 0
  | some (.str s) => string2ll s
  | some (.int value) => some value

/-- What is left of a number in a `long long`. -/
def wrap64 (n : Int) : Int := (BitVec.ofInt 64 n).toInt

/-! ## The database -/

structure RedisDb where
  dict : Dict Sds Robj
  expires : Dict Sds Int
  deriving Repr, DecidableEq

inductive Abort
  | assertFailed
  | outOfBounds
  deriving Repr, DecidableEq

/-- What runs while one command is served. -/
abbrev Call := Prog Abort RedisDb

/-- What of the server a command finds: the hash function, whether dictionaries may be resized, and
the time in milliseconds, which is taken to be one for the whole command. -/
structure Server where
  hash : Sds → BitVec 64
  canResize : Bool
  mstime : Int

def serverAssert (b : Bool) : Call Unit := if b then pure () else throw .assertFailed

/-- An operation on `db->dict`. -/
def onDict {α : Type} (f : Dict Sds Robj → Dict Sds Robj × α) : Call α := do
  let db ← get
  set { db with dict := (f db.dict).1 }
  return (f db.dict).2

/-- An operation on `db->expires`. -/
def onExpires {α : Type} (f : Dict Sds Int → Dict Sds Int × α) : Call α := do
  let db ← get
  set { db with expires := (f db.expires).1 }
  return (f db.expires).2

section
variable (server : Server)

def lookupKey (key : Sds) : Call (Option Robj) := onDict fun d => dictFetchValue server.hash d key

/-- Returns whether there was the key. -/
def dbSyncDelete (key : Sds) : Call Bool := do
  let db ← get
  if 0 < dictSize db.expires then
    let _ ← onExpires fun d => dictDelete server.hash d key
  onDict fun d => dictDelete server.hash d key

/-- -1 if the key has no time to live. -/
def getExpire (key : Sds) : Call Int := do
  let db ← get
  if dictSize db.expires = 0 then return -1
  match ← onExpires fun d => dictFetchValue server.hash d key with
  | none => return -1
  | some t =>
    let o ← lookupKey server key
    serverAssert o.isSome
    return t

/-- Deletes the key if its time has come, and returns whether it did. -/
def expireIfNeeded (key : Sds) : Call Bool := do
  let t ← getExpire server key
  if t < 0 then return false
  else if server.mstime ≤ t then return false
  else dbSyncDelete server key

def lookupKeyRead (key : Sds) : Call (Option Robj) := do
  let expired ← expireIfNeeded server key
  if expired then return none
  else lookupKey server key

def lookupKeyWrite (key : Sds) : Call (Option Robj) := do
  let _ ← expireIfNeeded server key
  lookupKey server key

def dbAdd (key : Sds) (val : Robj) : Call Unit := do
  let added ← onDict fun d => dictAdd server.canResize server.hash d key val
  serverAssert added

def dbOverwrite (key : Sds) (val : Robj) : Call Unit := do
  let o ← lookupKey server key
  serverAssert o.isSome
  let _ ← onDict fun d => dictReplace server.canResize server.hash d key val
  return ()

def removeExpire (key : Sds) : Call Bool := do
  let o ← lookupKey server key
  serverAssert o.isSome
  onExpires fun d => dictDelete server.hash d key

/-- `dictAddOrFind`, and the time set in the entry it returns. -/
def setExpire (key : Sds) (t : Int) : Call Unit := do
  let o ← lookupKey server key
  serverAssert o.isSome
  let _ ← onExpires fun d => dictReplace server.canResize server.hash d key t
  return ()

/-- Whatever there was, the key is persistent afterwards. -/
def setKey (key : Sds) (val : Robj) : Call Unit := do
  let o ← lookupKeyWrite server key
  if o.isNone then dbAdd server key val else dbOverwrite server key val
  let _ ← removeExpire server key
  return ()

/-! ## Commands -/

inductive Reply
  | ok
  | nil
  | integer (n : Int)
  | bulk (s : Sds)
  | error (msg : String)
  /-- The cursor, and the keys. -/
  | scan (cursor : Sds) (keys : List Sds)
  deriving Repr, DecidableEq

def notInteger : Reply := .error "value is not an integer or out of range"

def syntaxerr : Reply := .error "syntax error"

inductive TimeUnit
  | seconds
  | milliseconds
  deriving Repr, DecidableEq

/-- `if (unit == UNIT_SECONDS) n *= 1000`. -/
def TimeUnit.toMillis : TimeUnit → Int → Int
  | .seconds, n => wrap64 (n * 1000)
  | .milliseconds, n => n

/-- The time to live of SET and its kind. `ex` is the argument, if there is one. -/
def expireTime (name : String) (ex : Option Sds) (unit : TimeUnit) : Except Reply (Option Int) :=
  match ex with
  | none => .ok none
  | some s =>
    match string2ll s with
    | none => .error notInteger
    | some n =>
      if n ≤ 0 then .error (.error ("invalid expire time in " ++ name))
      else .ok (some (unit.toMillis n))

/-- NX refuses a key that is there. -/
def refusedNX (nx : Bool) (key : Sds) : Call Bool := do
  if nx then
    let o ← lookupKeyWrite server key
    return o.isSome
  else return false

/-- XX refuses a key that is not there. -/
def refusedXX (xx : Bool) (key : Sds) : Call Bool := do
  if xx then
    let o ← lookupKeyWrite server key
    return o.isNone
  else return false

def setGenericCommand (name : String) (nx xx : Bool) (key : Sds) (val : Robj) (ex : Option Sds)
    (unit : TimeUnit) (okReply abortReply : Reply) : Call Reply :=
  match expireTime name ex unit with
  | .error e => return e
  | .ok ttl => do
    let taken ← refusedNX server nx key
    if taken then return abortReply
    let missing ← refusedXX server xx key
    if missing then return abortReply
    setKey server key val
    match ttl with
    | some milliseconds => setExpire server key (wrap64 (server.mstime + milliseconds))
    | none => pure ()
    return okReply

structure SetFlags where
  nx : Bool := false
  xx : Bool := false
  ex : Bool := false
  px : Bool := false
  expire : Option Sds := none
  unit : TimeUnit := .seconds
  deriving Repr, DecidableEq

/-- The argument is this letter and an x, in either case, and ends there. -/
def isOption (lower upper : Char) (a : Sds) : Bool :=
  (a.getD 0 NUL == lower || a.getD 0 NUL == upper) && (a.getD 1 NUL == 'x' || a.getD 1 NUL == 'X') &&
    a.getD 2 NUL == NUL

/-- The options of SET. `none` is a syntax error. -/
def setOptions : List Sds → SetFlags → Option SetFlags
  | [], flags => some flags
  | [a], flags =>
    if isOption 'n' 'N' a && !flags.xx then some { flags with nx := true }
    else if isOption 'x' 'X' a && !flags.nx then some { flags with xx := true }
    else none
  | a :: next :: args, flags =>
    if isOption 'n' 'N' a && !flags.xx then setOptions (next :: args) { flags with nx := true }
    else if isOption 'x' 'X' a && !flags.nx then setOptions (next :: args) { flags with xx := true }
    else if isOption 'e' 'E' a && !flags.px then
      setOptions args { flags with ex := true, unit := .seconds, expire := some next }
    else if isOption 'p' 'P' a && !flags.ex then
      setOptions args { flags with px := true, unit := .milliseconds, expire := some next }
    else none

def setCommand (key val : Sds) (args : List Sds) : Call Reply :=
  match setOptions args {} with
  | none => return syntaxerr
  | some flags => setGenericCommand server "set" flags.nx flags.xx key (tryObjectEncoding val)
      flags.expire flags.unit .ok .nil

def setnxCommand (key val : Sds) : Call Reply :=
  setGenericCommand server "setnx" true false key (tryObjectEncoding val) none .seconds
    (.integer 1) (.integer 0)

def setexCommand (key ex val : Sds) : Call Reply :=
  setGenericCommand server "setex" false false key (tryObjectEncoding val) (some ex) .seconds .ok .nil

def psetexCommand (key ex val : Sds) : Call Reply :=
  setGenericCommand server "psetex" false false key (tryObjectEncoding val) (some ex) .milliseconds .ok .nil

def getCommand (key : Sds) : Call Reply := do
  match ← lookupKeyRead server key with
  | none => return .nil
  | some o => return .bulk o.text

def getsetCommand (key val : Sds) : Call Reply := do
  let reply ← getCommand server key
  setKey server key (tryObjectEncoding val)
  return reply

/-- The loop of DEL; `numdel` is what was deleted so far. -/
def delLoop : List Sds → (numdel : Int) → Call Reply
  | [], numdel => return .integer numdel
  | key :: keys, numdel => do
    let _ ← expireIfNeeded server key
    let deleted ← dbSyncDelete server key
    delLoop keys (if deleted then numdel + 1 else numdel)

def delCommand (keys : List Sds) : Call Reply := delLoop server keys 0

def existsLoop : List Sds → (count : Int) → Call Reply
  | [], count => return .integer count
  | key :: keys, count => do
    let _ ← expireIfNeeded server key
    let o ← lookupKey server key
    existsLoop keys (if o.isSome then count + 1 else count)

def existsCommand (keys : List Sds) : Call Reply := existsLoop server keys 0

def expireGenericCommand (key param : Sds) (basetime : Int) (unit : TimeUnit) : Call Reply :=
  match string2ll param with
  | none => return notInteger
  | some n => do
    let t := wrap64 (unit.toMillis n + basetime)
    let o ← lookupKeyWrite server key
    if o.isNone then return .integer 0
    else if t ≤ server.mstime then
      let deleted ← dbSyncDelete server key
      serverAssert deleted
      return .integer 1
    else
      setExpire server key t
      return .integer 1

def expireCommand (key seconds : Sds) : Call Reply :=
  expireGenericCommand server key seconds server.mstime .seconds

def expireatCommand (key time : Sds) : Call Reply := expireGenericCommand server key time 0 .seconds

def pexpireCommand (key milliseconds : Sds) : Call Reply :=
  expireGenericCommand server key milliseconds server.mstime .milliseconds

def pexpireatCommand (key time : Sds) : Call Reply :=
  expireGenericCommand server key time 0 .milliseconds

def ttlGenericCommand (key : Sds) (outputMs : Bool) : Call Reply := do
  let o ← lookupKeyRead server key
  if o.isNone then return .integer (-2)
  let t ← getExpire server key
  let ttl := if t = -1 then -1 else max (wrap64 (t - server.mstime)) 0
  if ttl = -1 then return .integer (-1)
  else return .integer (if outputMs then ttl else (ttl + 500).tdiv 1000)

def ttlCommand (key : Sds) : Call Reply := ttlGenericCommand server key false

def pttlCommand (key : Sds) : Call Reply := ttlGenericCommand server key true

def persistCommand (key : Sds) : Call Reply := do
  let o ← lookupKeyWrite server key
  if o.isSome then
    let removed ← removeExpire server key
    return .integer (if removed then 1 else 0)
  else return .integer 0

/-- The integers every database shares, which nobody may write to. -/
def OBJ_SHARED_INTEGERS : Int := 10000

def isShared (n : Int) : Bool := 0 ≤ n && n < OBJ_SHARED_INTEGERS

def overflows (oldvalue incr : Int) : Bool :=
  (incr < 0 && oldvalue < 0 && incr < LLONG_MIN - oldvalue) ||
    (0 < incr && 0 < oldvalue && LLONG_MAX - oldvalue < incr)

def incrDecrCommand (key : Sds) (incr : Int) : Call Reply := do
  let o ← lookupKeyWrite server key
  match getLongLongFromObject o with
  | none => return notInteger
  | some oldvalue =>
    if overflows oldvalue incr then return .error "increment or decrement would overflow"
    let value := oldvalue + incr
    match o with
    | none => dbAdd server key (.int value)
    | some (.str _) => dbOverwrite server key (.int value)
    | some (.int old) =>
      -- A number nobody shares is written to where it is.
      if !isShared old && !isShared value then
        onDict fun d => (d.setVal (server.hash key) key (.int value), ())
      else dbOverwrite server key (.int value)
    return .integer value

def incrCommand (key : Sds) : Call Reply := incrDecrCommand server key 1

def decrCommand (key : Sds) : Call Reply := incrDecrCommand server key (-1)

def incrbyCommand (key param : Sds) : Call Reply :=
  match string2ll param with
  | none => return notInteger
  | some incr => incrDecrCommand server key incr

def decrbyCommand (key param : Sds) : Call Reply :=
  match string2ll param with
  | none => return notInteger
  | some incr => incrDecrCommand server key (wrap64 (-incr))

def dbsizeCommand : Call Reply := do
  let db ← get
  return .integer (dictSize db.dict)

def flushdbCommand : Call Reply := do
  set (⟨dictEmpty, dictEmpty⟩ : RedisDb)
  return .ok

/-! ## SCAN -/

/-- `isspace` in the C locale. -/
def isSpace (c : Char) : Bool := c == ' ' || (9 ≤ c.toNat && c.toNat ≤ 13)

def ULONG_MAX : Nat := 2 ^ 64 - 1

/-- `strtoul` to base 10: the value, what is left of the string, and whether it was out of range.
Without digits nothing is read. A minus sign turns the value around. -/
def strtoul (s : Sds) : Nat × Sds × Bool :=
  let p := s.dropWhile isSpace
  let negative := p.head? = some '-'
  let p := if negative ∨ p.head? = some '+' then p.tail else p
  let digits := p.takeWhile Char.isDigit
  let n := Nat.ofDigitChars 10 digits 0
  if digits.isEmpty then (0, s, false)
  else if ULONG_MAX < n then (ULONG_MAX, p.dropWhile Char.isDigit, true)
  else (if negative then (2 ^ 64 - n) % 2 ^ 64 else n, p.dropWhile Char.isDigit, false)

/-- `none` is an invalid cursor. -/
def parseScanCursor (s : Sds) : Option (BitVec 64) :=
  let (v, rest, erange) := strtoul s
  if isSpace (s.headD NUL) || rest.headD NUL != NUL || erange then none
  else some (BitVec.ofNat 64 v)

/-- COUNT and MATCH. A pattern that is a lone star is none. -/
structure ScanOptions where
  count : Int := 10
  pat : Option Sds := none
  deriving Repr, DecidableEq

/-- `strcasecmp(a, name) == 0`. The name is lower case. -/
def strcaseeq (a : Sds) (name : String) : Bool :=
  (a.takeWhile (· != NUL)).map Char.toLower == name.toList

def scanOptions : List Sds → ScanOptions → Except Reply ScanOptions
  | [], opts => .ok opts
  | [_], _ => .error syntaxerr
  | name :: arg :: args, opts =>
    if strcaseeq name "count" then
      match string2ll arg with
      | none => .error notInteger
      | some count => if count < 1 then .error syntaxerr else scanOptions args { opts with count := count }
    else if strcaseeq name "match" then
      scanOptions args { opts with pat := if arg = ['*'] then none else some arg }
    else .error syntaxerr

/-- The loop over `dictScan`: the cursor it ends with, and the keys. `maxiterations` is a `long`,
which counts down to 0 from wherever it starts. -/
def scanLoop {ν : Type} (d : Dict Sds ν) (count : Int) :
    (maxiterations : Nat) → (cursor : BitVec 64) → (keys : List Sds) → BitVec 64 × List Sds
  | 0, cursor, keys => ((dictScan d cursor).2, keys ++ (dictScan d cursor).1.map (·.1))
  | n + 1, cursor, keys =>
    let v := (dictScan d cursor).2
    let keys := keys ++ (dictScan d cursor).1.map (·.1)
    if v ≠ 0 ∧ keys.length < count then scanLoop d count n v keys else (v, keys)

/-- Keys that do not match, and keys whose time has come, are left out. -/
def scanFilter (pat : Option Sds) : List Sds → Call (List Sds)
  | [] => return []
  | key :: keys =>
    match pat.map (stringmatchlen · key false) with
    | some none => throw .outOfBounds
    | some (some false) => scanFilter pat keys
    | _ => do
      let expired ← expireIfNeeded server key
      let rest ← scanFilter pat keys
      return (if expired then rest else key :: rest)

def scanGenericCommand (cursor : BitVec 64) (args : List Sds) : Call Reply :=
  match scanOptions args {} with
  | .error e => return e
  | .ok opts => do
    let db ← get
    let maxiterations := (BitVec.ofInt 64 (opts.count * 10)).toNat
    let (next, keys) := scanLoop db.dict opts.count maxiterations cursor []
    let keys ← scanFilter server opts.pat keys
    return .scan (ll2string (List.replicate 64 NUL) next.toInt) keys

def scanCommand (cursor : Sds) (args : List Sds) : Call Reply :=
  match parseScanCursor cursor with
  | none => return .error "invalid cursor"
  | some v => scanGenericCommand server v args

/-! ## The server -/

inductive Command
  | set (key val : Sds) (args : List Sds)
  | setnx (key val : Sds)
  | setex (key ex val : Sds)
  | psetex (key ex val : Sds)
  | get (key : Sds)
  | getset (key val : Sds)
  | del (keys : List Sds)
  | exists (keys : List Sds)
  | expire (key seconds : Sds)
  | expireat (key time : Sds)
  | pexpire (key milliseconds : Sds)
  | pexpireat (key time : Sds)
  | ttl (key : Sds)
  | pttl (key : Sds)
  | persist (key : Sds)
  | incr (key : Sds)
  | decr (key : Sds)
  | incrby (key param : Sds)
  | decrby (key param : Sds)
  | dbsize
  | flushdb
  | scan (cursor : Sds) (args : List Sds)
  deriving Repr, DecidableEq

/-- `c->cmd->proc(c)`. -/
def call : Command → Call Reply
  | .set key val args => setCommand server key val args
  | .setnx key val => setnxCommand server key val
  | .setex key ex val => setexCommand server key ex val
  | .psetex key ex val => psetexCommand server key ex val
  | .get key => getCommand server key
  | .getset key val => getsetCommand server key val
  | .del keys => delCommand server keys
  | .exists keys => existsCommand server keys
  | .expire key seconds => expireCommand server key seconds
  | .expireat key time => expireatCommand server key time
  | .pexpire key milliseconds => pexpireCommand server key milliseconds
  | .pexpireat key time => pexpireatCommand server key time
  | .ttl key => ttlCommand server key
  | .pttl key => pttlCommand server key
  | .persist key => persistCommand server key
  | .incr key => incrCommand server key
  | .decr key => decrCommand server key
  | .incrby key param => incrbyCommand server key param
  | .decrby key param => decrbyCommand server key param
  | .dbsize => dbsizeCommand
  | .flushdb => flushdbCommand
  | .scan cursor args => scanCommand server cursor args

def HASHTABLE_MIN_FILL : Nat := 10

def htNeedsResize {ν : Type} (d : Dict Sds ν) : Bool :=
  let size := d.ht0.size + d.ht1.size
  DICT_HT_INITIAL_SIZE < size && dictSize d * 100 / size < HASHTABLE_MIN_FILL

/-- One dictionary of `tryResizeHashTables`. -/
def tryResize {ν : Type} (d : Dict Sds ν) : Dict Sds ν :=
  if htNeedsResize d then (dictResize server.canResize d).getD d else d

/-- Steps of a hundred, until there is nothing left to move or the time is over, after so many. -/
def dictRehashMilliseconds {ν : Type} : (turns : Nat) → Dict Sds ν → Dict Sds ν
  | 0, d => d
  | turns + 1, d =>
    match dictRehash server.hash d 100 with
    | (d, true) => dictRehashMilliseconds turns d
    | (d, false) => d

def incrementallyRehash (turns : Nat) : Call Unit := do
  let db ← get
  if db.dict.isRehashing then set { db with dict := dictRehashMilliseconds server turns db.dict }
  else set { db with expires := dictRehashMilliseconds server turns db.expires }

/-- One sample of `activeExpireCycle`: `dictGetRandomKey`, which picks the entry `i`, and
`activeExpireCycleTryExpire`. -/
def tryExpireRandom (i : Nat) : Call Unit := do
  let de ← onExpires fun d =>
    let d := if dictSize d = 0 then d else d.stepIfRehashing server.hash
    (d, (d.ht0.table.flatten ++ d.ht1.table.flatten)[i]?)
  match de with
  | none => return ()
  | some (key, t) =>
    if t < server.mstime then
      let _ ← dbSyncDelete server key
      return ()
    else return ()

end

/-- What the server does next: a client's command, or something of its own. -/
inductive Job
  | command (c : Command)
  | tryResizeHashTables
  | incrementallyRehash (turns : Nat)
  | tryExpireRandom (i : Nat)
  deriving Repr, DecidableEq

def perform (server : Server) : Job → Call (Option Reply)
  | .command c => do
    let reply ← call server c
    return some reply
  | .tryResizeHashTables => do
    let db ← get
    set (⟨tryResize server db.dict, tryResize server db.expires⟩ : RedisDb)
    return none
  | .incrementallyRehash turns => do
    incrementallyRehash server turns
    return none
  | .tryExpireRandom i => do
    tryExpireRandom server i
    return none

end Redis
