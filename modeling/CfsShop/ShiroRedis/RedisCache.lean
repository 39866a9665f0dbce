/-
shiro-redis: what the methods of `RedisCache` and `RedisSessionDAO` send to the
server, command by command.

Nothing holds a method's commands together: between two of them any other
method, any other program and the server itself may act, and a method whose
connection is lost stops between them for good. A `Frame` is where a method
stands, and the machine is a server with any number of methods over it.
-/
import CfsShop.Lib.Run
import CfsShop.Redis.History

namespace ShiroRedis

open Redis

/-! ## Regions -/

/-- What a `RedisCache` and the `RedisSessionDAO` are made of: the part of the keys they have to
themselves, the seconds an entry is kept, and the `count` of their `BaseRedisManager`. -/
structure Region where
  keyPrefix : Sds
  expire : Int
  count : Int
  deriving Repr, DecidableEq

/-- `BaseRedisManager.DEFAULT_COUNT`. -/
def DEFAULT_COUNT : Int := 100

/-- The constructor of `RedisCache`, which does not take -1 for the time. -/
def RedisCache (keyPrefix : Sds) (expire count : Int) : Region :=
  ⟨keyPrefix, if expire ≠ -1 then expire else 0, count⟩

structure RedisCacheManager where
  keyPrefix : Sds := "shiro:cache:".toList
  expire : Int := 1800
  count : Int := DEFAULT_COUNT
  deriving Repr, DecidableEq

/-- Two caches of one name are the same to the server, so it does not matter that two threads may
both make one. -/
def RedisCacheManager.getCache (m : RedisCacheManager) (name : Sds) : Region :=
  RedisCache (m.keyPrefix ++ name ++ [':']) m.expire m.count

/-- `RedisSessionDAO` with its defaults. -/
def RedisSessionDAO : Region := ⟨"shiro:session:".toList, 1800, DEFAULT_COUNT⟩

/-! ## Methods -/

/-- `String.compareTo`. -/
def compareTo : List Char → List Char → Int
  | [], t => -t.length
  | s, [] => s.length
  | c :: s, d :: t => if c = d then compareTo s t else c.toNat - d.toNat

/-- The arguments `BaseRedisManager.keys` gives to SCAN after the cursor. -/
def scanParams (count : Int) (pattern : Sds) : List Sds :=
  ["COUNT".toList, decimal count, "MATCH".toList, pattern]

/-- `Long.intValue`. -/
def intValue (n : Int) : Int := (BitVec.ofInt 32 n).toInt

/-- What `BaseRedisManager.keys` is called for. -/
inductive Purpose
  | clear
  | keys
  | values
  deriving Repr, DecidableEq

inductive Result
  | void
  | value (v : Option Sds)
  | size (n : Int)
  | keys (keys : List Sds)
  | values (values : List Sds)
  deriving Repr, DecidableEq

/-- The command a method is at. Keys are those of the server, with the prefix. -/
inductive Frame
  /-- `RedisCache.get`, and `doReadSession` without a session in memory. -/
  | get (key : Sds)
  /-- `put` and `saveSession`. -/
  | set (key value : Sds)
  | expire (key : Sds)
  | remove (key : Sds)
  /-- The second half of `remove`, and `delete`. -/
  | del (key : Sds) (previous : Option Sds)
  | size
  | scan (purpose : Purpose) (cursor : Sds) (keys : List Sds)
  /-- The loop of `clear`. The keys are in a `HashSet`, which is gone through in any order. -/
  | clear (keys : List Sds)
  /-- The loop of `values`, which passes over values it cannot read. -/
  | values (keys values : List Sds)
  | returned (result : Result)
  | threw
  deriving Repr, DecidableEq

namespace Frame

/-- The next command. `i` says which key a loop takes next. -/
def sends (r : Region) (i : Nat) : Frame → Option Command
  | get key | remove key => some (.get key)
  | set key value => some (.set key value [])
  | expire key => some (.expire key (decimal r.expire))
  | del key _ => some (.del [key])
  | size => some .dbsize
  | scan _ cursor _ => some (.scan cursor (scanParams r.count (r.keyPrefix ++ ['*'])))
  | clear keys => keys[i]?.map fun key => .del [key]
  | values keys _ => keys[i]?.map .get
  | returned _ | threw => none

def nextClear (keys : List Sds) : Frame := if keys.isEmpty then returned .void else clear keys

def nextValues (keys vs : List Sds) : Frame := if keys.isEmpty then returned (.values vs) else values keys vs

/-- The keys are all there. -/
def scanned (keys : List Sds) : Purpose → Frame
  | .clear => nextClear keys
  | .keys => returned (.keys keys)
  | .values => nextValues keys []

/-- What the reply leads to. `deserializes` are the values `ObjectSerializer` can read. An error is
thrown by Jedis. -/
def receives (deserializes : Sds → Bool) (r : Region) (i : Nat) : Frame → Reply → Frame
  | get _, .nil => returned (.value none)
  | get _, .bulk v => if deserializes v then returned (.value (some v)) else threw
  | set key _, .ok => if 0 ≤ r.expire then expire key else returned .void
  | expire _, .integer _ => returned .void
  | remove key, .nil => del key none
  | remove key, .bulk v => if deserializes v then del key (some v) else threw
  | del _ previous, .integer _ => returned (.value previous)
  | size, .integer n => returned (.size (intValue n))
  | scan purpose _ keys, .scan cursor page =>
    if 0 < compareTo cursor ['0'] then scan purpose cursor (keys ++ page) else scanned (keys ++ page) purpose
  | clear keys, .integer _ => nextClear (keys.eraseIdx i)
  | values keys vs, .nil => nextValues (keys.eraseIdx i) vs
  | values keys vs, .bulk v => nextValues (keys.eraseIdx i) (if deserializes v then vs ++ [v] else vs)
  | _, _ => threw

/-- Where a method starts. -/
def begins (r : Region) : Frame → Bool
  | get key | set key _ | remove key | del key none => r.keyPrefix.isPrefixOf key
  | size => true
  | scan _ cursor keys => cursor = ['0'] && keys.isEmpty
  | _ => false

end Frame

/-! ## The machine -/

/-- Who acts: the server itself and other programs, or a method. -/
inductive Caller
  | others
  | client (r : Region) (f : Frame)
  deriving Repr, DecidableEq

/-- What the environment decides about a step. -/
structure Choice where
  moment : Moment
  index : Nat
  /-- What the others do. -/
  job : Job
  deriving Repr, DecidableEq

/-- A command that was served, and the region it was served for. -/
abbrev Sent := Option Region × Int × Command × Reply

namespace Caller

def job (x : Choice) : Caller → Option Job
  | others => some x.job
  | client r f => (f.sends r x.index).map .command

def region : Caller → Option Region
  | others => none
  | client r _ => some r

/-- Without a reply Jedis throws. -/
def receives (deserializes : Sds → Bool) (i : Nat) : Caller → Option Reply → Caller
  | others, _ => others
  | client r f, some reply => client r (f.receives deserializes r i reply)
  | client r _, none => client r .threw

/-- Times and counts are of type `int`. -/
def allowed : Caller → Bool
  | others => true
  | client r f => f.begins r && decide (-2 ^ 31 ≤ r.expire ∧ r.expire < 2 ^ 31) &&
    decide (-2 ^ 31 ≤ r.count ∧ r.count < 2 ^ 31)

end Caller

section
variable (hash : Sds → BitVec 64) (deserializes : Sds → Bool)

/-- One command of a method, or one job of the others. -/
def step (x : Choice) (u : Except Abort Up) (c : Caller) : Option (Except Abort Up × Caller × List Sent) :=
  match c.job x, u with
  | none, _ => none
  | some _, .error e => some (.error e, c.receives deserializes x.index none, [])
  | some j, .ok u =>
    match u.serve hash (x.moment, j) with
    | .error e => some (.error e, c.receives deserializes x.index none, [])
    | .ok (u, reply) => some (.ok u, c.receives deserializes x.index reply,
        (record x.moment.mstime j reply).map fun e => (c.region, e))

def machine : Machine (Except Abort Up) Caller Choice Sent := ⟨fun _ => Caller.allowed, step hash deserializes⟩

end

/-- A server and the methods over it. -/
abbrev Callers := Pool (Except Abort Up) Caller Sent

def start : Callers := ⟨.ok Up.start, [], []⟩

/-- What a new server and its callers have come to. -/
def after (hash : Sds → BitVec 64) (deserializes : Sds → Bool) (ls : List (Label Caller Choice)) : Callers :=
  Run.run (Pool.exec (machine hash deserializes)) start ls

end ShiroRedis
