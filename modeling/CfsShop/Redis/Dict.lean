/-
The dictionary of the bundled Redis (dict.c): a hash table with chaining that
changes size while it is used. While it does, it is two tables, and every
lookup or update moves one more bucket from the first to the second.

A bucket is the list of its entries, in the order the `next` pointers give.
`dict_can_resize`, which the server clears while a child is saving, is an
argument. An entry pointer is the entry itself: a key is in a dictionary at
most once, so the key says which entry is meant.
-/
import Mathlib.Tactic.Common
import Mathlib.Algebra.Order.Ring.Nat
import Mathlib.Algebra.Order.Ring.Int
import Mathlib.Logic.Function.Basic
import CfsShop.Lib.Buckets
import CfsShop.Lib.Cursor
import CfsShop.Lib.Run

namespace Redis

variable {κ ν : Type}

/-! ## The tables -/

/-- `size` and `sizemask` follow from the table: a table is allocated with both, and a reset
clears all three. -/
structure Dictht (κ ν : Type) where
  table : List (List (κ × ν))
  used : Nat
  deriving Repr, DecidableEq

namespace Dictht

def size (t : Dictht κ ν) : Nat := t.table.length

def sizemask (t : Dictht κ ν) : BitVec 64 := BitVec.ofNat 64 (t.size - 1)

/-- `h & sizemask`. -/
def index (t : Dictht κ ν) (h : BitVec 64) : Nat := (h &&& t.sizemask).toNat

/-- `table[i]`, with what hangs on it. -/
def chain (t : Dictht κ ν) (i : Nat) : List (κ × ν) := t.table[i]?.getD []

end Dictht

/-- A reset table. -/
def dictReset : Dictht κ ν := ⟨[], 0⟩

/-- A table of empty buckets. -/
def dictAlloc (size : Nat) : Dictht κ ν := ⟨List.replicate size [], 0⟩

/-- `rehashidx` is -1 (`none`) when no rehashing is in progress. -/
structure Dict (κ ν : Type) where
  ht0 : Dictht κ ν
  ht1 : Dictht κ ν
  rehashidx : Option Nat
  iterators : BitVec 64
  deriving Repr, DecidableEq

def dictCreate : Dict κ ν := ⟨dictReset, dictReset, none, 0⟩

def Dict.isRehashing (d : Dict κ ν) : Bool := d.rehashidx.isSome

def dictSize (d : Dict κ ν) : Nat := d.ht0.used + d.ht1.used

/-! ## Resizing -/

def DICT_HT_INITIAL_SIZE : Nat := 4

def LONG_MAX : Nat := 2 ^ 63 - 1

/-- The doubling loop. After 61 turns `i` is `LONG_MAX + 1`, which fits any size that comes here. -/
def nextPowerLoop (size : Nat) : (fuel i : Nat) → Nat
  | 0, i => i
  | fuel + 1, i => if size ≤ i then i else nextPowerLoop size fuel (i * 2)

def dictNextPower (size : Nat) : Nat :=
  if LONG_MAX ≤ size then LONG_MAX + 1 else nextPowerLoop size 61 DICT_HT_INITIAL_SIZE

/-- `none` is `DICT_ERR`. The memory is taken to be there. From 2^61 buckets on the number of bytes
`zcalloc` is asked for would wrap around, which is left out. -/
def dictExpand (d : Dict κ ν) (size : Nat) : Option (Dict κ ν) :=
  let realsize := dictNextPower size
  -- The size is invalid if it is smaller than the number of elements already inside.
  if d.isRehashing ∨ size < d.ht0.used then none
  else if realsize = d.ht0.size then none
  else if d.ht0.table.isEmpty then some { d with ht0 := dictAlloc realsize }
  else some { d with ht1 := dictAlloc realsize, rehashidx := some 0 }

/-- The number of elements goes through an `int` on its way to `dictExpand`. -/
def dictResize (canResize : Bool) (d : Dict κ ν) : Option (Dict κ ν) :=
  if !canResize ∨ d.isRehashing then none
  else
    let minimal := (BitVec.ofNat 32 d.ht0.used).toInt
    dictExpand d (if minimal < DICT_HT_INITIAL_SIZE then DICT_HT_INITIAL_SIZE else minimal.toNat)

def dictExpandIfNeeded (canResize : Bool) (d : Dict κ ν) : Option (Dict κ ν) :=
  if d.isRehashing then some d
  else if d.ht0.size = 0 then dictExpand d DICT_HT_INITIAL_SIZE
  else if d.ht0.size ≤ d.ht0.used ∧ (canResize ∨ 5 < d.ht0.used / d.ht0.size) then
    dictExpand d (d.ht0.used * 2 % 2 ^ 64)
  else some d

/-! ## Rehashing -/

/-- `e->next = table[i]; table[i] = e; used++`. -/
def Dictht.insertAt (t : Dictht κ ν) (i : Nat) (e : κ × ν) : Dictht κ ν :=
  ⟨t.table.set i (e :: t.chain i), t.used + 1⟩

/-- The walk over empty buckets: the visits left (0: the call is over) and where it stopped. -/
def skipEmpty (table : List (List (κ × ν))) : (emptyVisits idx : Nat) → Nat × Nat
  | 0, idx => (0, idx)
  | emptyVisits + 1, idx =>
    match table[idx]? with
    | some [] => skipEmpty table emptyVisits (idx + 1)
    | _ => (emptyVisits + 1, idx)

/-- Moves the keys of one bucket, and steps past it. -/
def Dict.moveBucket (hash : κ → BitVec 64) (d : Dict κ ν) (idx : Nat) : Dict κ ν :=
  let b := d.ht0.chain idx
  { d with
    ht0 := ⟨d.ht0.table.set idx [], d.ht0.used - b.length⟩
    ht1 := b.foldl (fun t e => t.insertAt (t.index (hash e.1)) e) d.ht1
    rehashidx := some (idx + 1) }

/-- The loop of `dictRehash`; `true` when it ran out of empty buckets to visit. -/
def rehashLoop (hash : κ → BitVec 64) : (n emptyVisits idx : Nat) → Dict κ ν → Dict κ ν × Bool
  | 0, _, _, d => (d, false)
  | n + 1, emptyVisits, idx, d =>
    if d.ht0.used = 0 then (d, false)
    else
      match skipEmpty d.ht0.table emptyVisits idx with
      | (0, idx) => ({ d with rehashidx := some idx }, true)
      | (emptyVisits + 1, idx) =>
        rehashLoop hash n (emptyVisits + 1) (idx + 1) (d.moveBucket hash idx)

/-- `n` steps of rehashing. Returns whether there are still keys to move. -/
def dictRehash (hash : κ → BitVec 64) (d : Dict κ ν) (n : Nat) : Dict κ ν × Bool :=
  match d.rehashidx with
  | none => (d, false)
  | some idx =>
    match rehashLoop hash n (n * 10) idx d with
    | (d, true) => (d, true)
    | (d, false) =>
      if d.ht0.used = 0 then
        ({ d with ht0 := d.ht1, ht1 := dictReset, rehashidx := none }, false)
      else (d, true)

def dictRehashStep (hash : κ → BitVec 64) (d : Dict κ ν) : Dict κ ν :=
  if d.iterators = 0 then (dictRehash hash d 1).1 else d

/-- `if (dictIsRehashing(d)) _dictRehashStep(d)`, the start of every operation. -/
def Dict.stepIfRehashing (hash : κ → BitVec 64) (d : Dict κ ν) : Dict κ ν :=
  if d.isRehashing then dictRehashStep hash d else d

/-! ## Operations -/

section
variable [DecidableEq κ]

/-- The walk along one chain. -/
def Dictht.findIn (t : Dictht κ ν) (h : BitVec 64) (key : κ) : Option (κ × ν) :=
  (t.chain (t.index h)).find? (·.1 = key)

/-- The loop over the tables. -/
def Dict.lookup (d : Dict κ ν) (h : BitVec 64) (key : κ) : Option (κ × ν) :=
  match d.ht0.findIn h key with
  | some e => some e
  | none => if d.isRehashing then d.ht1.findIn h key else none

def dictFind (hash : κ → BitVec 64) (d : Dict κ ν) (key : κ) : Dict κ ν × Option (κ × ν) :=
  if dictSize d = 0 then (d, none)
  else
    let d := d.stepIfRehashing hash
    (d, d.lookup (hash key) key)

def dictFetchValue (hash : κ → BitVec 64) (d : Dict κ ν) (key : κ) : Dict κ ν × Option ν :=
  let (d, he) := dictFind hash d key
  (d, he.map (·.2))

/-- The index for a new key, in the context of the second table while rehashing; or the entry
that has the key already, or nothing when the table could not be expanded. -/
def dictKeyIndex (canResize : Bool) (d : Dict κ ν) (h : BitVec 64) (key : κ) :
    Dict κ ν × Except (Option (κ × ν)) Nat :=
  match dictExpandIfNeeded canResize d with
  | none => (d, .error none)
  | some d =>
    match d.lookup h key with
    | some e => (d, .error (some e))
    | none => (d, .ok (if d.isRehashing then d.ht1.index h else d.ht0.index h))

/-- The value is the one the caller sets in the entry it gets back. `error` is the existing entry. -/
def dictAddRaw (canResize : Bool) (hash : κ → BitVec 64) (d : Dict κ ν) (key : κ) (val : ν) :
    Dict κ ν × Except (Option (κ × ν)) Unit :=
  match dictKeyIndex canResize (d.stepIfRehashing hash) (hash key) key with
  | (d, .error existing) => (d, .error existing)
  | (d, .ok index) =>
    if d.isRehashing then ({ d with ht1 := d.ht1.insertAt index (key, val) }, .ok ())
    else ({ d with ht0 := d.ht0.insertAt index (key, val) }, .ok ())

def dictAdd (canResize : Bool) (hash : κ → BitVec 64) (d : Dict κ ν) (key : κ) (val : ν) :
    Dict κ ν × Bool :=
  match dictAddRaw canResize hash d key val with
  | (d, .ok ()) => (d, true)
  | (d, .error _) => (d, false)

/-- The entry of a chain with the key gets the value. -/
def Dictht.setVal (t : Dictht κ ν) (h : BitVec 64) (key : κ) (val : ν) : Dictht κ ν :=
  { t with
    table := t.table.set (t.index h)
      ((t.chain (t.index h)).map fun e => if e.1 = key then (e.1, val) else e) }

/-- `dictSetVal` of the entry with the key, whichever table it is in. -/
def Dict.setVal (d : Dict κ ν) (h : BitVec 64) (key : κ) (val : ν) : Dict κ ν :=
  { d with ht0 := d.ht0.setVal h key val, ht1 := d.ht1.setVal h key val }

/-- Returns whether the key was added from scratch. -/
def dictReplace (canResize : Bool) (hash : κ → BitVec 64) (d : Dict κ ν) (key : κ) (val : ν) :
    Dict κ ν × Bool :=
  match dictAddRaw canResize hash d key val with
  | (d, .ok ()) => (d, true)
  | (d, .error (some existing)) => (d.setVal (hash existing.1) existing.1 val, false)
  -- The source reads the entry it did not get.
  | (d, .error none) => (d, false)

/-- Unlinks the first entry of the chain with the key. -/
def Dictht.unlink (t : Dictht κ ν) (h : BitVec 64) (key : κ) : Dictht κ ν where
  table := t.table.set (t.index h) ((t.chain (t.index h)).eraseP (·.1 = key))
  used := t.used - 1

def dictGenericDelete (hash : κ → BitVec 64) (d : Dict κ ν) (key : κ) :
    Dict κ ν × Option (κ × ν) :=
  if d.ht0.used = 0 ∧ d.ht1.used = 0 then (d, none)
  else
    let d := d.stepIfRehashing hash
    let h := hash key
    match d.ht0.findIn h key with
    | some he => ({ d with ht0 := d.ht0.unlink h key }, some he)
    | none =>
      if d.isRehashing then
        match d.ht1.findIn h key with
        | some he => ({ d with ht1 := d.ht1.unlink h key }, some he)
        | none => (d, none)
      else (d, none)

def dictDelete (hash : κ → BitVec 64) (d : Dict κ ν) (key : κ) : Dict κ ν × Bool :=
  let (d, he) := dictGenericDelete hash d key
  (d, he.isSome)

end

def dictEmpty : Dict κ ν := ⟨dictReset, dictReset, none, 0⟩

/-! ## Runs -/

/-- What can be done to a dictionary. The first four are what its users ask for; the rest may
happen in between at any time, at the server's choice. -/
inductive DictOp (κ ν : Type)
  | add (key : κ) (val : ν)
  | replace (key : κ) (val : ν)
  | fetchValue (key : κ)
  | delete (key : κ)
  | size
  | empty
  | resize
  | expand (size : Nat)
  | rehash (n : Nat)
  /-- The first `dictNext` of a safe iterator, and its release. -/
  | iterStart
  | iterRelease
  deriving Repr, DecidableEq

inductive DictReply (ν : Type)
  | done (ok : Bool)
  | value (v : Option ν)
  | count (n : Nat)
  /-- The operation answers nothing its user could look at. -/
  | silent
  deriving Repr, DecidableEq

/-- One operation, while `dict_can_resize` is `canResize`. -/
def dictStep [DecidableEq κ] (hash : κ → BitVec 64) (d : Dict κ ν) (canResize : Bool) :
    DictOp κ ν → Dict κ ν × DictReply ν
  | .add key val => (dictAdd canResize hash d key val).map id .done
  | .replace key val => (dictReplace canResize hash d key val).map id .done
  | .fetchValue key => (dictFetchValue hash d key).map id .value
  | .delete key => (dictDelete hash d key).map id .done
  | .size => (d, .count (dictSize d))
  | .empty => (dictEmpty, .silent)
  | .resize => ((dictResize canResize d).getD d, .silent)
  | .expand size => ((dictExpand d size).getD d, .silent)
  | .rehash n => ((dictRehash hash d n).1, .silent)
  | .iterStart => ({ d with iterators := d.iterators + 1 }, .silent)
  | .iterRelease => ({ d with iterators := d.iterators - 1 }, .silent)

/-- A dictionary in use, with what it has answered. -/
def dictExec [DecidableEq κ] (hash : κ → BitVec 64) (s : Dict κ ν × List (DictReply ν))
    (op : Bool × DictOp κ ν) : Dict κ ν × List (DictReply ν) :=
  let (d, reply) := dictStep hash s.1 op.1 op.2
  (d, s.2 ++ [reply])

end Redis
